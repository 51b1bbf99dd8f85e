import Homoicon.Text.Classes

/-! Reading numbers. -/
namespace Homoicon.Decimal
open Text (digitValue natOfDigits)

/-- The double nearest to `digits * 10 ^ exponent`. Far outside the range of doubles the result is
infinite or zero, whatever the digits. -/
def nearest (digits : Nat) (exponent : Int) : Float :=
  let places := (Nat.toDigits 10 digits).length + exponent
  if digits = 0 ∨ places < -400 then 0
  else if 400 < places then 1.0 / 0.0
  else if 0 ≤ exponent then Float.ofScientific digits false exponent.toNat
  else Float.ofScientific digits true (-exponent).toNat

/-- The exponent written by the text after a numeral's `e`. -/
def signedValue : List Char → Int
  | '-' :: digits => -(natOfDigits 10 digits : Int)
  | '+' :: digits => natOfDigits 10 digits
  | digits => natOfDigits 10 digits

/-- The double that a decimal numeral stands for: digits, a point and more digits, and an exponent
after the letter `e`, each but the digits optional. -/
def value (numeral : List Char) : Float :=
  let isExponent := fun c : Char => c = 'e' || c = 'E'
  let mantissa := numeral.takeWhile (!isExponent ·)
  let exponent := signedValue ((numeral.dropWhile (!isExponent ·)).drop 1)
  let whole := mantissa.takeWhile (· != '.')
  let fraction := (mantissa.dropWhile (· != '.')).drop 1
  nearest (natOfDigits 10 (whole ++ fraction)) (exponent - fraction.length)

/-- The double that digits in a base stand for, each step rounded. -/
def valueInBase (base : Nat) (digits : List Char) : Float :=
  digits.foldl (fun acc c => acc * Float.ofNat base + Float.ofNat (digitValue c)) 0

end Homoicon.Decimal
