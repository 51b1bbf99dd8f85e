import Homoicon.Decimal.Literal

/-! Numeric literals at the front of a text. -/
namespace Homoicon.Numeral
open Text (isBit isHexDigit)

def leading (p : Char → Bool) (text : List Char) : Nat := (text.takeWhile p).length

theorem take_leading (p : Char → Bool) (text : List Char) :
    text.take (leading p text) = text.takeWhile p := by
  induction text with
  | nil => rfl
  | cons c rest ih => by_cases h : p c <;> simp_all [leading]

theorem drop_leading (p : Char → Bool) (text : List Char) :
    text.drop (leading p text) = text.dropWhile p := by
  induction text with
  | nil => rfl
  | cons c rest ih => by_cases h : p c <;> simp_all [leading]

/-- Length of a zero, the marker in either case and at least one digit; zero if there is none. -/
def markedLength (marker : Char) (isDigit : Char → Bool) : List Char → Nat
  | '0' :: c :: rest =>
    if c.toLower = marker ∧ leading isDigit rest ≠ 0 then leading isDigit rest + 2 else 0
  | _ => 0

/-- Length of a hexadecimal literal, or of a binary one, which may have a minus. -/
def radixLength (text : List Char) : Nat :=
  if markedLength 'x' isHexDigit text ≠ 0 then markedLength 'x' isHexDigit text
  else match text with
    | '-' :: rest =>
      if markedLength 'b' isBit rest = 0 then 0 else markedLength 'b' isBit rest + 1
    | _ => markedLength 'b' isBit text

/-- Length of digits with a point among or after them, or a point and digits. -/
def mantissaLength (text : List Char) : Nat :=
  let whole := leading Char.isDigit text
  match text.drop whole with
  | '.' :: rest =>
    let fraction := leading Char.isDigit rest
    if whole = 0 ∧ fraction = 0 then 0 else whole + 1 + fraction
  | _ => whole

/-- Length of the letter `e` in either case, a sign or none, and at least one digit. -/
def exponentLength : List Char → Nat
  | e :: rest =>
    if e.toLower = 'e' then
      let sign := match rest with
        | '+' :: _ | '-' :: _ => 1
        | _ => 0
      let digits := leading Char.isDigit (rest.drop sign)
      if digits = 0 then 0 else 1 + sign + digits
    else 0
  | [] => 0

def decimalLength (text : List Char) : Nat :=
  let mantissa := mantissaLength text
  if mantissa = 0 then 0 else mantissa + exponentLength (text.drop mantissa)

/-- Length of the numeric literal at the front of the text; zero if there is none. -/
def length (text : List Char) : Nat :=
  if radixLength text ≠ 0 then radixLength text else decimalLength text

def value : List Char → Float
  | '-' :: _ :: _ :: digits => -Decimal.valueInBase 2 digits
  | '0' :: marker :: digits =>
    if marker.toLower = 'x' then Decimal.valueInBase 16 digits
    else if marker.toLower = 'b' then Decimal.valueInBase 2 digits
    else Decimal.value ('0' :: marker :: digits)
  | text => Decimal.value text

end Homoicon.Numeral
