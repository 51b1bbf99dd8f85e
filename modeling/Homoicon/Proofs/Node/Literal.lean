import Homoicon.Proofs.Node.Number
import Homoicon.Token.Numeral

/-! What a numeric literal stands for is a number. -/
namespace Homoicon.Decimal
open Float.Model (Format UnpackedFloat)
open Float.Model.UnpackedFloat (Accuracy Sign packComponents unpackSign)

/-- Whether an unpacked double is a number with the given sign. -/
def HasSign (sign : Sign) : UnpackedFloat → Prop
  | .notANumber => False
  | .infinity s | .zero s | .finite s _ _ _ => s = sign

/-- Whether an unpacked double is finite and more than zero, so that nothing becomes undefined when
it is multiplied or divided by it. -/
def IsScale : UnpackedFloat → Prop
  | .finite .positive _ _ _ => True
  | _ => False

instance : DecidablePred IsScale := fun x => by
  unfold IsScale
  split <;> infer_instance

section Unpacked
variable {spec : Format} {sign : Sign} {x y : UnpackedFloat}

theorem HasSign.ite {c : Prop} [Decidable c] (hx : c → HasSign sign x) (hy : ¬c → HasSign sign y) :
    HasSign sign (if c then x else y) := by
  split
  · next h => exact hx h
  · next h => exact hy h

theorem HasSign.dite {c : Prop} [Decidable c] {f : c → UnpackedFloat} {g : ¬c → UnpackedFloat}
    (hf : ∀ h, HasSign sign (f h)) (hg : ∀ h, HasSign sign (g h)) :
    HasSign sign (if h : c then f h else g h) := by
  split
  · next h => exact hf h
  · next h => exact hg h

theorem unpackSign_packComponents (sign : Sign) (exponent : BitVec spec.exponentBits)
    (mantissa : BitVec spec.mantissaBitsWithoutImplicit) :
    unpackSign (packComponents spec sign exponent mantissa) = sign.toBitVec := by
  refine BitVec.eq_of_getLsbD_eq fun i hi => ?_
  obtain rfl : i = 0 := Nat.lt_one_iff.mp hi
  change (BitVec.cast _ (BitVec.extractLsb _ _ (sign.toBitVec ++ exponent ++ mantissa))).getLsbD 0 =
    sign.toBitVec.getLsbD 0
  simp [BitVec.getLsbD_append, BitVec.getElem_append]

theorem ofBitVec_toBitVec (sign : Sign) : Sign.ofBitVec sign.toBitVec = sign := by
  cases sign <;> rfl

/-- Fields are those of a number unless the exponent is the greatest and the mantissa is not zero.
-/
theorem hasSign_unpack {exponent : BitVec spec.exponentBits}
    {mantissa : BitVec spec.mantissaBitsWithoutImplicit} (h : exponent = -1#_ → mantissa = 0#_) :
    HasSign sign (.unpack spec (packComponents spec sign exponent mantissa)) := by
  have hsign : Sign.ofBitVec (unpackSign (packComponents spec sign exponent mantissa)) = sign := by
    rw [unpackSign_packComponents, ofBitVec_toBitVec]
  refine HasSign.ite (fun hexponent => ?_) fun _ => ?_
  · refine HasSign.ite (fun _ => hsign) fun hmantissa => ?_
    rw [UnpackedFloat.unpackExponent_packComponents] at hexponent
    rw [UnpackedFloat.unpackMantissa_packComponents] at hmantissa
    exact absurd (h hexponent) hmantissa
  · exact HasSign.ite (fun _ => .dite (fun _ => hsign) fun _ => hsign) fun _ => hsign

/-- A number that is too large for the format becomes infinite, but not undefined. -/
theorem HasSign.pack (h : HasSign sign x) :
    HasSign sign (.unpack spec (UnpackedFloat.pack spec x)) := by
  cases x with
  | notANumber => exact h.elim
  | infinity s =>
    cases h
    exact hasSign_unpack fun _ => rfl
  | zero s =>
    cases h
    exact hasSign_unpack fun _ => rfl
  | finite s m e hm =>
    cases h
    unfold UnpackedFloat.pack
    dsimp only
    generalize (e + spec.exponentBias + spec.mantissaBitsWithoutImplicit).toNat = biased
    split
    · exact hasSign_unpack fun _ => rfl
    · next hfits =>
      split
      · refine hasSign_unpack fun h => ?_
        have htoNat := congrArg BitVec.toNat h
        rw [BitVec.toNat_ofNat, BitVec.neg_one_eq_allOnes, BitVec.toNat_allOnes,
          Nat.mod_eq_of_lt (by omega)] at htoNat
        omega
      · refine hasSign_unpack fun h => ?_
        have htoNat := congrArg BitVec.toNat h
        have hone := Nat.one_lt_two_pow (Nat.ne_of_gt spec.he)
        rw [BitVec.toNat_zero, BitVec.neg_one_eq_allOnes, BitVec.toNat_allOnes] at htoNat
        omega

theorem hasSign_roundWithAccuracy (m : Nat) (e : Int) (accuracy : Accuracy) :
    HasSign sign (.roundWithAccuracy spec sign m e accuracy) :=
  HasSign.dite (fun _ => rfl) fun _ => rfl

theorem hasSign_normalize {m : Int} (hm : 0 ≤ m) (e : Int) :
    HasSign .positive (.normalize spec m e .positive) := by
  unfold UnpackedFloat.normalize
  split
  · next h => exact absurd (Std.compare_eq_lt.mp h) (by omega)
  · rfl
  · exact hasSign_roundWithAccuracy ..

theorem HasSign.mul (hx : HasSign .positive x) (hy : IsScale y) :
    HasSign .positive (.mul spec x y) := by
  rcases y with _ | _ | _ | ⟨_ | _, m, e, hm⟩
  case finite.positive =>
    cases x with
    | notANumber => exact hx.elim
    | infinity s => cases hx; rfl
    | zero s => cases hx; rfl
    | finite s n d hn => cases hx; exact hasSign_roundWithAccuracy ..
  all_goals exact hy.elim

theorem HasSign.div (hx : HasSign .positive x) (hy : IsScale y) :
    HasSign .positive (.div spec x y) := by
  rcases y with _ | _ | _ | ⟨_ | _, m, e, hm⟩
  case finite.positive =>
    cases x with
    | notANumber => exact hx.elim
    | infinity s => cases hx; rfl
    | zero s => cases hx; rfl
    | finite s n d hn => cases hx; exact hasSign_roundWithAccuracy ..
  all_goals exact hy.elim

/-- Numbers without a minus have a sum, as an infinity has with all of them. -/
theorem HasSign.add (hx : HasSign .positive x) (hy : HasSign .positive y) :
    HasSign .positive (.add spec x y) := by
  cases x <;> cases y <;> cases hx <;> cases hy
  case finite.finite =>
    exact hasSign_normalize (Int.add_nonneg (Int.natCast_nonneg _) (Int.natCast_nonneg _)) _
  all_goals rfl

theorem HasSign.neg (h : HasSign sign x) : HasSign (-sign) x.neg := by
  cases x with
  | notANumber => exact h.elim
  | infinity s => cases h; rfl
  | zero s => cases h; rfl
  | finite s n d hn => cases h; rfl

theorem hasSign_ofScientific (m : Nat) (e : Int) :
    HasSign .positive (.ofScientific spec m e) := by
  refine HasSign.dite (fun _ => rfl) fun _ => ?_
  refine HasSign.ite (fun _ => rfl) fun _ => ?_
  refine HasSign.ite (fun _ => rfl) fun _ => ?_
  exact HasSign.ite (fun _ => .mul rfl trivial) fun _ => .div rfl trivial

end Unpacked

def IsMagnitude (x : Float) : Prop := HasSign .positive x.toModel.unpack

section Magnitude
variable {x y : Float}

theorem IsMagnitude.mul (hx : IsMagnitude x) (hy : IsScale y.toModel.unpack) :
    IsMagnitude (x * y) :=
  HasSign.pack (HasSign.mul hx hy)

theorem IsMagnitude.div (hx : IsMagnitude x) (hy : IsScale y.toModel.unpack) :
    IsMagnitude (x / y) :=
  HasSign.pack (HasSign.div hx hy)

theorem IsMagnitude.add (hx : IsMagnitude x) (hy : IsMagnitude y) : IsMagnitude (x + y) :=
  HasSign.pack (HasSign.add hx hy)

theorem beq_self_of_hasSign {sign : Sign} (h : HasSign sign x.toModel.unpack) : (x == x) = true :=
  unpacked_beq_iff.mpr (.inl ⟨rfl, fun hnan => by rw [hnan] at h; exact h⟩)

theorem isScale_of_mem_powers :
    ∀ power ∈ Float.exactlyRepresentablePowersOfTen, IsScale power.toModel.unpack := by
  decide +kernel

theorem isMagnitude_ofScientific (m : Nat) (negative : Bool) (e : Nat) :
    IsMagnitude (Float.ofScientific m negative e) := by
  unfold Float.ofScientific
  split
  · have hm : IsMagnitude m.toUInt64.toFloat :=
      HasSign.pack (hasSign_normalize (Int.natCast_nonneg _) 0)
    dsimp only
    split
    · exact hm.div (isScale_of_mem_powers _ (Array.getElem_mem _))
    · exact hm.mul (isScale_of_mem_powers _ (Array.getElem_mem _))
  · exact HasSign.pack (hasSign_ofScientific ..)

theorem isMagnitude_ofNat (n : Nat) : IsMagnitude (Float.ofNat n) :=
  isMagnitude_ofScientific n false 0

theorem isMagnitude_nearest (digits : Nat) (exponent : Int) :
    IsMagnitude (nearest digits exponent) := by
  have hinfinite : IsMagnitude (1.0 / 0.0) := rfl
  unfold nearest
  dsimp only
  split
  · exact isMagnitude_ofNat 0
  · split
    · exact hinfinite
    · split
      · exact isMagnitude_ofScientific ..
      · exact isMagnitude_ofScientific ..

theorem isMagnitude_valueInBase {base : Nat} (hbase : IsScale (Float.ofNat base).toModel.unpack)
    (digits : List Char) : IsMagnitude (valueInBase base digits) := by
  unfold valueInBase
  refine List.foldlRecOn digits _ (isMagnitude_ofNat 0) fun acc hacc c _ => ?_
  exact (hacc.mul hbase).add (isMagnitude_ofNat _)

end Magnitude

end Homoicon.Decimal

namespace Homoicon.Numeral
open Decimal

theorem value_beq_self (text : List Char) : (value text == value text) = true := by
  have hbinary : ∀ digits, IsMagnitude (valueInBase 2 digits) :=
    isMagnitude_valueInBase (by decide +kernel)
  have hhex : ∀ digits, IsMagnitude (valueInBase 16 digits) :=
    isMagnitude_valueInBase (by decide +kernel)
  unfold value
  split
  · exact beq_self_of_hasSign (HasSign.pack (hbinary _).neg)
  · split
    · exact beq_self_of_hasSign (hhex _)
    · split
      · exact beq_self_of_hasSign (hbinary _)
      · exact beq_self_of_hasSign (isMagnitude_nearest ..)
  · exact beq_self_of_hasSign (isMagnitude_nearest ..)

end Homoicon.Numeral
