import Homoicon.Location
import Homoicon.Text.Printable

/-! Errors in source text. -/
namespace Homoicon
open Text (quoted)

structure Note where
  message : String
  location : Location
deriving DecidableEq, Repr

/-- What is wrong with a text. An escape that lacks its braces also names the place where the string
it stands in begins. -/
inductive ParseError.Cause
  | unclosed (opener : String)
  | unknownEscape
  | invalidEscape
  | escapeOutOfRange
  | expectedBrace (letter : String) (string : Location)
  | unknownRule (name : String)
deriving DecidableEq, Repr

structure ParseError where
  cause : ParseError.Cause
  location : Location
deriving DecidableEq, Repr

def ParseError.Cause.message : ParseError.Cause → String
  | unclosed opener => quoted opener ++ " was never closed"
  | unknownEscape => "unknown escaped character"
  | invalidEscape => "invalid escape sequence"
  | escapeOutOfRange => "escape out of range"
  | expectedBrace letter _ => "expected \"\x7b\" after \"\\" ++ letter ++ "\""
  | unknownRule name => "no block rule named " ++ quoted name

namespace ParseError

def message (e : ParseError) : String := e.cause.message

def notes (e : ParseError) : List Note :=
  match e.cause with
  | .expectedBrace _ string =>
    [⟨"note: use ' instead of \" to make this a raw string", string⟩]
  | _ => []

def display (e : ParseError) : String := s!"{e.location.display}: error: {e.message}"

end ParseError
end Homoicon
