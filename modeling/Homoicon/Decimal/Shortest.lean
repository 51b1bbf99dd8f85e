/-! The shortest decimal that reads back as a given double. -/
namespace Homoicon.Decimal

/-- A double taken apart; a finite one is `significand * 2 ^ exponent` with its sign. -/
inductive Parts
  | nan
  | infinite (negative : Bool)
  | finite (negative : Bool) (significand : Nat) (exponent : Int)
deriving DecidableEq, Repr

/-- The least exponent of a double; subnormal numbers have it. -/
def leastExponent : Int := -1074

/-- The significand of the least normal number. -/
def leastNormal : Nat := 0x10000000000000

def parts (x : Float) : Parts :=
  let bits : Nat := x.toBits.toNat
  let negative := bits / 0x8000000000000000 = 1
  let biased : Nat := bits / leastNormal % 2048
  let fraction : Nat := bits % leastNormal
  if biased = 2047 then if fraction = 0 then .infinite negative else .nan
  else if biased = 0 then .finite negative fraction leastExponent
  else .finite negative (leastNormal + fraction) (leastExponent + (biased : Int) - 1)

/-- Which of two decimals at equal distance is taken. -/
inductive Tie
  | up
  | even
deriving DecidableEq, Repr

/-- `digits * 10 ^ exponent`. -/
structure Significant where
  digits : Nat
  exponent : Int
deriving DecidableEq, Repr

/-- The numbers that round to `value`, all in quarters of its last place, against multiples of
`unit / scale` of such a quarter. The ends round to `value` when its significand is even. -/
structure Target where
  low : Nat
  value : Nat
  high : Nat
  closed : Bool
deriving Repr

/-- Below a power of two the neighbour is half as far. -/
def Target.of (significand : Nat) (exponent : Int) : Target where
  low := 4 * significand -
    (if significand = leastNormal ∧ exponent ≠ leastExponent then 1 else 2)
  value := 4 * significand
  high := 4 * significand + 2
  closed := significand % 2 = 0

def Target.contains (t : Target) (unit scale point : Nat) : Bool :=
  (t.low * scale < point * unit && point * unit < t.high * scale) ||
    (t.closed && (t.low * scale = point * unit || point * unit = t.high * scale))

/-- The better of the two grid points around the value, when one of them rounds to it. -/
def Target.hit? (t : Target) (tie : Tie) (unit scale : Nat) : Option Nat :=
  let below := t.value * scale / unit
  let gapBelow := t.value * scale - below * unit
  let gapAbove := (below + 1) * unit - t.value * scale
  match t.contains unit scale below, t.contains unit scale (below + 1) with
  | true, true =>
    if gapBelow < gapAbove then some below
    else if gapAbove < gapBelow then some (below + 1)
    else match tie with
      | .up => some (below + 1)
      | .even => some (if below % 2 = 0 then below else below + 1)
  | true, false => some below
  | false, true => some (below + 1)
  | false, false => none

/-- Spacing of the grid of multiples of `10 ^ place`, in parts of a quarter of `2 ^ exponent`. -/
def gridUnit (place exponent : Int) : Nat :=
  Nat.pow 10 place.toNat * Nat.pow 2 (2 - exponent).toNat

/-- The parts of a quarter of `2 ^ exponent` that `gridUnit` counts. -/
def gridScale (place exponent : Int) : Nat :=
  Nat.pow 10 (-place).toNat * Nat.pow 2 (exponent - 2).toNat

/-- Tries the grids of `10 ^ (bottom + n)` down to `10 ^ bottom`; the last one has a point between
any two quarters. -/
def coarsest (t : Target) (tie : Tie) (exponent bottom : Int) : Nat → Significant
  | 0 => ⟨t.value * gridScale bottom exponent / gridUnit bottom exponent, bottom⟩
  | n + 1 =>
    let place := bottom + (n + 1 : Nat)
    match t.hit? tie (gridUnit place exponent) (gridScale place exponent) with
    | some digits => ⟨digits, place⟩
    | none => coarsest t tie exponent bottom n

/-- The point of the coarsest decimal grid that rounds to `significand * 2 ^ exponent`, which is not
zero. It has the fewest digits, and of those it is the nearest. -/
def shortest (tie : Tie) (significand : Nat) (exponent : Int) : Significant :=
  let top := (significand.log2 + exponent + 2) * 30103 / 100000 + 1
  let bottom := min 0 (exponent - 2)
  coarsest (.of significand exponent) tie exponent bottom (top - bottom).toNat

end Homoicon.Decimal
