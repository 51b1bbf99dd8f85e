import Homoicon.Digest
import Mathlib.Logic.Function.Basic

/-! No step of a hash loses anything: it is injective in what is taken in, and so the hashes of
texts that differ in one byte are different. -/
namespace Homoicon

def utf8 (text : String) : List UInt8 := text.toUTF8.data.toList

/-- Whether two texts have equally many bytes and differ in exactly one of them. -/
def OneByteApart (s t : String) : Prop :=
  (utf8 s).length = (utf8 t).length ∧
    ∃ i < (utf8 s).length, (utf8 s)[i]? ≠ (utf8 t)[i]? ∧
      ∀ j < (utf8 s).length, j ≠ i → (utf8 s)[j]? = (utf8 t)[j]?

instance (s t : String) : Decidable (OneByteApart s t) := inferInstanceAs (Decidable (_ ∧ _))

namespace Digest

section Words

/-- Multiplication by this word undoes the one by `prime`. -/
def primeInverse : UInt64 := 0xce965057aff6957b

theorem prime_mul_inverse : prime * primeInverse = 1 := rfl

theorem mul_prime_injective : Function.Injective (· * prime) := by
  have hinverse : Function.LeftInverse (· * primeInverse) (· * prime) := fun x =>
    calc
      x * prime * primeInverse = x * (prime * primeInverse) := UInt64.mul_assoc x _ _
      _ = x := by rw [prime_mul_inverse, UInt64.mul_one]
  exact hinverse.injective

theorem bitVec_rotateRight_rotateLeft {width : Nat} (x : BitVec width) (places : Nat) :
    (x.rotateLeft places).rotateRight places = x := by
  refine BitVec.eq_of_getElem_eq fun i hi => ?_
  have hlt := Nat.mod_lt places (Nat.lt_of_le_of_lt (Nat.zero_le i) hi)
  rw [BitVec.getElem_rotateRight]
  -- A bit either moves up and down again, or it leaves at the top and comes back at the bottom.
  split
  · next hstays =>
    rw [BitVec.getElem_rotateLeft, dif_neg (by omega)]
    congr 1
    omega
  · next hleaves =>
    rw [BitVec.getElem_rotateLeft, dif_pos (by omega)]
    congr 1
    omega

variable {places : UInt64} (hpos : 0 < places.toNat) (hlt : places.toNat < 64)
include hpos hlt

theorem toBitVec_rotateLeft (x : UInt64) :
    (rotateLeft x places).toBitVec = x.toBitVec.rotateLeft places.toNat := by
  have hout : (places.toBitVec % 64).toNat = places.toNat := Nat.mod_eq_of_lt hlt
  have hback : ((64 - places).toBitVec % 64).toNat = 64 - places.toNat := by
    have hsub : (64 - places).toNat = 64 - places.toNat :=
      UInt64.toNat_sub_of_le _ _ (UInt64.le_iff_toNat_le.mpr (Nat.le_of_lt hlt))
    rw [BitVec.toNat_umod, UInt64.toNat_toBitVec, hsub]
    exact Nat.mod_eq_of_lt (Nat.sub_lt (Nat.lt_trans hpos hlt) hpos)
  calc
    (rotateLeft x places).toBitVec = x.toBitVec <<< (places.toBitVec % 64).toNat |||
        x.toBitVec >>> ((64 - places).toBitVec % 64).toNat := rfl
    _ = x.toBitVec.rotateLeft places.toNat := by
      rw [hout, hback, BitVec.rotateLeft_def, Nat.mod_eq_of_lt hlt]

theorem rotateLeft_injective : Function.Injective (rotateLeft · places) := by
  intro x y h
  have hbits : x.toBitVec.rotateLeft places.toNat = y.toBitVec.rotateLeft places.toNat := by
    rw [← toBitVec_rotateLeft hpos hlt, ← toBitVec_rotateLeft hpos hlt]
    exact congrArg UInt64.toBitVec h
  apply UInt64.toBitVec_inj.mp
  rw [← bitVec_rotateRight_rotateLeft x.toBitVec places.toNat, hbits,
    bitVec_rotateRight_rotateLeft]

end Words

section Mixing
variable (hash : UInt64)

theorem mixByte_injective : Function.Injective (mixByte hash) := fun _ _ h =>
  UInt8.toUInt64_inj.mp ((UInt64.xor_right_inj hash).mp (mul_prime_injective h))

theorem mixByte_injective_left (byte : UInt8) : Function.Injective (mixByte · byte) := fun _ _ h =>
  (UInt64.xor_left_inj byte.toUInt64).mp (mul_prime_injective h)

theorem mixChild_injective : Function.Injective (mixChild hash) := fun _ _ h =>
  (UInt64.add_right_inj _).mp h

theorem mixChild_injective_left (child : UInt64) : Function.Injective (mixChild · child) := by
  intro x y h
  have hproduct := (UInt64.add_left_inj child).mp h
  have hmasked : x ^^^ childMask = y ^^^ childMask :=
    rotateLeft_injective (by decide) (by decide) (mul_prime_injective hproduct)
  exact (UInt64.xor_left_inj childMask).mp hmasked

theorem mixValue_injective : Function.Injective (mixValue hash) := fun _ _ h =>
  (UInt64.add_right_inj _).mp ((UInt64.xor_right_inj hash).mp h)

end Mixing

theorem foldl_mixByte_injective (bytes : List UInt8) :
    Function.Injective fun hash => bytes.foldl mixByte hash := by
  induction bytes with
  | nil => exact Function.injective_id
  | cons byte bytes ih => exact ih.comp (mixByte_injective_left byte)

/-- A change of one byte, wherever it is, changes the hash of all of them: it is told apart where it
stands, and the bytes after it keep the difference. -/
theorem foldl_set_injective {bytes : List UInt8} {i : Nat} (hi : i < bytes.length) (hash : UInt64) :
    Function.Injective fun byte => (bytes.set i byte).foldl mixByte hash := by
  have hfold : ∀ byte, (bytes.set i byte).foldl mixByte hash =
      (bytes.drop (i + 1)).foldl mixByte (mixByte ((bytes.take i).foldl mixByte hash) byte) :=
    fun byte => by
      rw [List.set_eq_take_append_cons_drop, if_pos hi, List.foldl_append, List.foldl_cons]
  intro x y h
  simp only [hfold] at h
  exact mixByte_injective _ (foldl_mixByte_injective _ h)

theorem ofText_eq_foldl (text : String) : ofText text = (utf8 text).foldl mixByte offset := by
  rw [ofText, utf8, Array.foldl_toList]

end Digest

section OneByte
variable {s t : String}

/-- The one text is the other with another byte in one place. -/
theorem OneByteApart.exists_set (h : OneByteApart s t) :
    ∃ i, ∃ hi : i < (utf8 s).length, ∃ byte, (utf8 s)[i] ≠ byte ∧ utf8 t = (utf8 s).set i byte := by
  obtain ⟨hlength, i, hi, hne, hothers⟩ := h
  have hi' : i < (utf8 t).length := hlength ▸ hi
  rw [List.getElem?_eq_getElem hi, List.getElem?_eq_getElem hi'] at hne
  refine ⟨i, hi, (utf8 t)[i], fun h => hne (congrArg some h), ?_⟩
  refine List.ext_getElem (by rw [List.length_set, hlength]) fun j hj hj' => ?_
  rw [List.getElem_set]
  split
  · next h =>
    subst h
    rfl
  · next h =>
    rw [List.length_set] at hj'
    have hsame := hothers j hj' (Ne.symm h)
    rw [List.getElem?_eq_getElem hj, List.getElem?_eq_getElem hj'] at hsame
    exact (Option.some.inj hsame).symm

theorem OneByteApart.ofText_ne (h : OneByteApart s t) : Digest.ofText s ≠ Digest.ofText t := by
  obtain ⟨i, hi, byte, hne, hset⟩ := h.exists_set
  intro heq
  refine hne (Digest.foldl_set_injective hi Digest.offset ?_)
  calc
    ((utf8 s).set i (utf8 s)[i]).foldl Digest.mixByte Digest.offset = Digest.ofText s := by
      rw [List.set_getElem_self hi, Digest.ofText_eq_foldl]
    _ = Digest.ofText t := heq
    _ = ((utf8 s).set i byte).foldl Digest.mixByte Digest.offset := by
      rw [Digest.ofText_eq_foldl, hset]

end OneByte
end Homoicon
