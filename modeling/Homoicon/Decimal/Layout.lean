import Homoicon.Decimal.Shortest

/-! How chosen digits are written down. -/
namespace Homoicon.Decimal

/-- A way to write numbers: how ties between digits go, which decimal exponents are written without
an exponent, and whether a whole number keeps a point and a zero. -/
structure Layout where
  tie : Tie
  plain : Int → Bool
  keepsPoint : Bool

/-- The digits with the point in place; `exponent` is that of the last digit. -/
def positional (digits : List Char) (exponent : Int) (keepsPoint : Bool) : List Char :=
  if 0 ≤ exponent then
    digits ++ List.replicate exponent.toNat '0' ++ (if keepsPoint then ['.', '0'] else [])
  else
    let places := (-exponent).toNat
    if places < digits.length then
      digits.take (digits.length - places) ++ '.' :: digits.drop (digits.length - places)
    else
      ['0', '.'] ++ List.replicate (places - digits.length) '0' ++ digits

/-- One digit, the point and the others if there are any, and a signed exponent. -/
def scientific (digits : List Char) (leading : Int) : List Char :=
  digits.take 1 ++ (if digits.length ≤ 1 then [] else '.' :: digits.drop 1) ++
    ['e', if leading < 0 then '-' else '+'] ++ Nat.toDigits 10 leading.natAbs

def Layout.magnitude (l : Layout) (significand : Nat) (exponent : Int) : List Char :=
  if significand = 0 then positional ['0'] 0 l.keepsPoint
  else
    let s := shortest l.tie significand exponent
    let digits := Nat.toDigits 10 s.digits
    let leading := s.exponent + digits.length - 1
    if l.plain leading then positional digits s.exponent l.keepsPoint
    else scientific digits leading

/-- The text of a number; the sign of zero is shown. -/
def Layout.display (l : Layout) (x : Float) : String :=
  match parts x with
  | .nan => "NaN"
  | .infinite negative => if negative then "-inf" else "inf"
  | .finite negative significand exponent =>
    String.ofList ((if negative then ['-'] else []) ++ l.magnitude significand exponent)

/-- Never an exponent, no trailing zero, ties away from zero. -/
def Layout.plainest : Layout := ⟨.up, fun _ => true, false⟩

example : Layout.plainest.display 1e21 = "1000000000000000000000" := by decide +kernel
example : Layout.plainest.display 0.1 = "0.1" := by decide +kernel
example : Layout.plainest.display (-0.0) = "-0" := by decide +kernel

/-- Both neighbours of two to the minus 25 with sixteen or fewer digits are equally far. -/
example :
    Layout.plainest.display (Float.ofBits 0x3e60000000000000) = "0.000000029802322387695313" := by
  decide +kernel

end Homoicon.Decimal
