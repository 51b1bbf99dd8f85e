import Homoicon.Decimal.Layout

/-! When two doubles are equal, by the parts that their digits are chosen from. -/
namespace Homoicon.Decimal
open Float.Model (UnpackedFloat)
open Float.Model.UnpackedFloat (Sign unpackMantissa unpackExponent unpackSign)

namespace Parts

def ofUnpacked : UnpackedFloat → Parts
  | .notANumber => .nan
  | .infinity sign => .infinite (sign == .negative)
  | .zero sign => .finite (sign == .negative) 0 leastExponent
  | .finite sign significand exponent _ => .finite (sign == .negative) significand exponent

def isNegative : Parts → Bool
  | .nan => false
  | .infinite negative => negative
  | .finite negative _ _ => negative

end Parts

section Fields
variable (bits : BitVec Float.Model.Format.binary64.numBits)

theorem toNat_unpackMantissa : (unpackMantissa bits).toNat = bits.toNat % leastNormal := by
  unfold unpackMantissa
  rw [BitVec.toNat_cast, BitVec.extractLsb_toNat]
  rfl

theorem toNat_unpackExponent : (unpackExponent bits).toNat = bits.toNat / leastNormal % 2048 := by
  unfold unpackExponent
  rw [BitVec.toNat_cast, BitVec.extractLsb_toNat, Nat.shiftRight_eq_div_pow]
  rfl

theorem toNat_unpackSign : (unpackSign bits).toNat = bits.toNat / 0x8000000000000000 := by
  unfold unpackSign
  rw [BitVec.toNat_cast, BitVec.extractLsb_toNat, Nat.shiftRight_eq_div_pow]
  have hlt : bits.toNat < 0x10000000000000000 := bits.isLt
  change bits.toNat / 0x8000000000000000 % 2 = bits.toNat / 0x8000000000000000
  omega

theorem isNegative_ofBitVec :
    (Sign.ofBitVec (unpackSign bits) == .negative) =
      decide (bits.toNat / 0x8000000000000000 = 1) := by
  rw [← toNat_unpackSign]
  generalize unpackSign bits = sign
  revert sign
  decide

end Fields

theorem parts_eq_ofUnpacked (x : Float) : parts x = .ofUnpacked x.toModel.unpack := by
  let bits : BitVec Float.Model.Format.binary64.numBits := x.toBits.toBitVec
  have hspecial : unpackExponent bits = -1#_ ↔ (unpackExponent bits).toNat = 2047 :=
    BitVec.toNat_inj.symm
  have hsubnormal : unpackExponent bits = 0#_ ↔ (unpackExponent bits).toNat = 0 :=
    BitVec.toNat_inj.symm
  have hfraction : unpackMantissa bits = 0#_ ↔ (unpackMantissa bits).toNat = 0 :=
    BitVec.toNat_inj.symm
  have hleading : (1#1 ++ unpackMantissa bits).toNat = leastNormal + bits.toNat % leastNormal := by
    rw [BitVec.toNat_append, ← Nat.shiftLeft_add_eq_or_of_lt (unpackMantissa bits).isLt,
      toNat_unpackMantissa]
    rfl
  change (if bits.toNat / leastNormal % 2048 = 2047 then
      if bits.toNat % leastNormal = 0 then .infinite (bits.toNat / 0x8000000000000000 = 1) else .nan
    else if bits.toNat / leastNormal % 2048 = 0 then
      .finite (bits.toNat / 0x8000000000000000 = 1) (bits.toNat % leastNormal) leastExponent
    else .finite (bits.toNat / 0x8000000000000000 = 1) (leastNormal + bits.toNat % leastNormal)
      (leastExponent + (bits.toNat / leastNormal % 2048 : Nat) - 1)) =
    Parts.ofUnpacked (UnpackedFloat.unpack _ bits)
  rw [← isNegative_ofBitVec, ← hleading, ← toNat_unpackMantissa, ← toNat_unpackExponent]
  unfold UnpackedFloat.unpack
  dsimp only
  by_cases h : unpackExponent bits = -1#_
  · rw [if_pos h, if_pos (hspecial.mp h)]
    by_cases h : unpackMantissa bits = 0#_
    · rw [if_pos h, if_pos (hfraction.mp h)]
      rfl
    · rw [if_neg h, if_neg (mt hfraction.mpr h)]
      rfl
  · rw [if_neg h, if_neg (mt hspecial.mpr h)]
    by_cases hzero : unpackExponent bits = 0#_
    · rw [if_pos hzero, if_pos (hsubnormal.mp hzero)]
      by_cases h : unpackMantissa bits = 0#_
      · rw [dif_pos h, hfraction.mp h]
        rfl
      · rw [dif_neg h, hsubnormal.mp hzero]
        rfl
    · rw [if_neg hzero, if_neg (mt hsubnormal.mpr hzero)]
      unfold Parts.ofUnpacked
      dsimp only
      congr 1
      change (-1074 : Int) + _ - 1 = _ - (1023 + 52)
      omega

theorem compare_eq_eq_iff (s t : Sign) : compare s t = .eq ↔ s = t := by
  cases s <;> cases t <;> simp [compare]

/-- Finite doubles are equal if their parts are. -/
theorem compare_finite_iff {s t : Sign} {m n : Nat} {d e : Int} (hm : 0 < m) (hn : 0 < n) :
    (UnpackedFloat.finite s m d hm).compare (.finite t n e hn) = some .eq ↔
      s = t ∧ m = n ∧ d = e := by
  have hmagnitude : (compare d e).then (compare m n) = .eq ↔ m = n ∧ d = e := by
    rw [Ordering.then_eq_eq, Std.compare_eq_iff_eq, Std.compare_eq_iff_eq, and_comm]
  cases s <;> cases t
  case negative.negative =>
    change some ((compare d e).then (compare m n)).swap = some .eq ↔ _
    rw [Option.some_inj, Ordering.swap_eq_eq, hmagnitude]
    exact (and_iff_right rfl).symm
  case positive.positive =>
    change some ((compare d e).then (compare m n)) = some .eq ↔ _
    rw [Option.some_inj, hmagnitude]
    exact (and_iff_right rfl).symm
  all_goals exact iff_of_false nofun (fun h => nomatch h.1)

/-- Doubles are equal if they are the same and a number, or if both are zeros. -/
theorem unpacked_beq_iff {a b : UnpackedFloat} :
    a.beq b = true ↔
      (a = b ∧ a ≠ .notANumber) ∨ ((∃ sign, a = .zero sign) ∧ ∃ sign, b = .zero sign) := by
  unfold UnpackedFloat.beq
  rw [beq_iff_eq]
  constructor
  · intro h
    rcases a with s | _ | s | ⟨s, m, d, hm⟩ <;> rcases b with t | _ | t | ⟨t, n, e, hn⟩
    case infinity.infinity =>
      obtain rfl := (compare_eq_eq_iff s t).mp (Option.some.inj h)
      exact .inl ⟨rfl, nofun⟩
    case zero.zero => exact .inr ⟨⟨s, rfl⟩, t, rfl⟩
    case finite.finite =>
      obtain ⟨rfl, rfl, rfl⟩ := (compare_finite_iff hm hn).mp h
      exact .inl ⟨rfl, nofun⟩
    all_goals try cases s
    all_goals try cases t
    all_goals cases h
  · rintro (⟨rfl, hnan⟩ | ⟨⟨s, rfl⟩, t, rfl⟩)
    · cases a with
      | notANumber => exact absurd rfl hnan
      | infinity s => exact congrArg some ((compare_eq_eq_iff s s).mpr rfl)
      | zero s => rfl
      | finite s m d hm => exact (compare_finite_iff hm hm).mpr ⟨rfl, rfl, rfl⟩
    · rfl

instance partialEquivBEqFloat : PartialEquivBEq Float where
  symm {x y} h := by
    rcases unpacked_beq_iff.mp h with ⟨heq, hnan⟩ | ⟨hx, hy⟩
    · exact unpacked_beq_iff.mpr (.inl ⟨heq.symm, heq ▸ hnan⟩)
    · exact unpacked_beq_iff.mpr (.inr ⟨hy, hx⟩)
  trans {x y z} hxy hyz := by
    rcases unpacked_beq_iff.mp hxy with ⟨heq, hnan⟩ | ⟨hx, hy⟩
    · exact unpacked_beq_iff.mpr (heq ▸ unpacked_beq_iff.mp hyz)
    · rcases unpacked_beq_iff.mp hyz with ⟨heq, hnan⟩ | ⟨-, hz⟩
      · exact unpacked_beq_iff.mpr (.inr ⟨hx, heq ▸ hy⟩)
      · exact unpacked_beq_iff.mpr (.inr ⟨hx, hz⟩)

/-- Equal doubles of the same sign have the same parts. -/
theorem parts_eq_of_beq {x y : Float} (h : (x == y) = true)
    (hsign : (parts x).isNegative = (parts y).isNegative) : parts x = parts y := by
  rw [parts_eq_ofUnpacked, parts_eq_ofUnpacked] at hsign ⊢
  rcases unpacked_beq_iff.mp h with ⟨heq, -⟩ | ⟨⟨s, hx⟩, t, hy⟩
  · rw [heq]
  · rw [hx, hy] at hsign ⊢
    exact congrArg (Parts.finite · 0 leastExponent) hsign

theorem Layout.display_eq_of_beq (l : Layout) {x y : Float} (h : (x == y) = true)
    (hsign : (parts x).isNegative = (parts y).isNegative) : l.display x = l.display y := by
  unfold display
  rw [parts_eq_of_beq h hsign]

end Homoicon.Decimal
