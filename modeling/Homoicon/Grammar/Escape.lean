import Homoicon.ParseError

/-! What stands after a backslash in a string. -/
namespace Homoicon.Escape
open Text (isHexDigit natOfDigits)

def letter? : Char → Option Char
  | 'a' => some '\x07'
  | 'b' => some '\x08'
  | 'e' => some '\x1b'
  | 'f' => some '\x0c'
  | 'n' => some '\n'
  | 'r' => some '\r'
  | 't' => some '\t'
  | 'v' => some '\x0b'
  | 'z' => some '\x00'
  | '"' => some '"'
  | '\'' => some '\''
  | '\\' => some '\\'
  | _ => none

/-- How many hexadecimal digits follow a letter that begins a code point. -/
def digitCount? : Char → Option Nat
  | 'x' => some 2
  | 'u' => some 4
  | _ => none

def codePoint (digits : List Char) : Except ParseError.Cause Char :=
  let value := natOfDigits 16 digits
  if value.isValidChar then .ok (Char.ofNat value) else .error .escapeOutOfRange

/-- Decodes the escape at the front of a text; what follows it stays as it is. -/
def decode : List Char → Except ParseError.Cause (List Char)
  | [] => .error .invalidEscape
  | first :: rest =>
    match digitCount? first with
    | some count =>
      if rest.length < count ∨ !(rest.take count).all isHexDigit then .error .invalidEscape
      else (codePoint (rest.take count)).map (· :: rest.drop count)
    | none =>
      match letter? first with
      | some c => .ok (c :: rest)
      | none => .error .unknownEscape

/-- The character of a code point in braces, of any number of digits but none. -/
def decodeBraced : List Char → Except ParseError.Cause Char
  | '\x7b' :: rest =>
    if rest.getLast? = some '\x7d' ∧ rest.dropLast ≠ [] ∧ rest.dropLast.all isHexDigit then
      codePoint rest.dropLast
    else .error .invalidEscape
  | _ => .error .invalidEscape

end Homoicon.Escape
