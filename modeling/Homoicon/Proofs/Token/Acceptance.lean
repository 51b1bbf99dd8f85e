import Homoicon.Proofs.Token.Rules

/-! What a rule finds is never declined: a literal has a value, and any text can be a symbol. -/
namespace Homoicon
open Text (isBit isHexDigit)

namespace Token.Rule

/-- Whether a text is a zero, the marker in either case and digits. -/
def IsMarked (marker : Char) (isDigit : Char → Bool) (text : List Char) : Prop :=
  ∃ c digits, text = '0' :: c :: digits ∧ c.toLower = marker ∧ digits.all isDigit = true

theorem isMarked_take {marker : Char} {isDigit : Char → Bool} {text : List Char}
    (h : Numeral.markedLength marker isDigit text ≠ 0) :
    IsMarked marker isDigit (text.take (Numeral.markedLength marker isDigit text)) := by
  unfold Numeral.markedLength at h ⊢
  split at h
  · next c rest =>
    split at h
    · next hmarked =>
      refine ⟨c, rest.takeWhile isDigit, ?_, hmarked.1, List.all_takeWhile⟩
      rw [if_pos hmarked, List.take_succ_cons, List.take_succ_cons, Numeral.take_leading]
    · exact absurd rfl h
  · exact absurd rfl h

theorem radix_cases {text : List Char} (h : Numeral.radixLength text ≠ 0) :
    IsMarked 'x' isHexDigit (text.take (Numeral.radixLength text)) ∨
    IsMarked 'b' isBit (text.take (Numeral.radixLength text)) ∨
    ∃ rest, text.take (Numeral.radixLength text) = '-' :: rest ∧ IsMarked 'b' isBit rest := by
  unfold Numeral.radixLength at h ⊢
  split at h
  · next hhex =>
    rw [if_pos hhex]
    exact .inl (isMarked_take hhex)
  · next hhex =>
    rw [if_neg hhex]
    split at h
    · next rest =>
      split at h
      · exact absurd rfl h
      · next hbits =>
        rw [if_neg hbits]
        exact .inr (.inr ⟨_, rfl, isMarked_take hbits⟩)
    · exact .inr (.inl (isMarked_take h))

theorem radixValue_take {text : List Char} (h : Numeral.radixLength text ≠ 0) :
    radixValue (text.take (Numeral.radixLength text)) =
      some (Numeral.value (text.take (Numeral.radixLength text))) := by
  have hzero : Char.utf8Size '0' = 1 := rfl
  rcases radix_cases h with ⟨c, digits, heq, hc, hdigits⟩ | ⟨c, digits, heq, hc, hdigits⟩ |
    ⟨-, heq, c, digits, rfl, hc, hdigits⟩
  all_goals
    rw [heq]
    simp [radixValue, magnitude, digitsAfter, Numeral.value, hzero, hc, hdigits]

end Token.Rule

namespace Decimal
open Numeral (leading signLength exponentLength mantissaLength decimalLength)
variable {text rest exponent : List Char} {c e : Char}

theorem withoutSign_cons :
    withoutSign (c :: rest) = if c = '+' ∨ c = '-' then rest else c :: rest := by
  unfold withoutSign
  split <;> simp_all

theorem withoutSign_take (text : List Char) (n : Nat) :
    withoutSign (text.take (signLength text + n)) = (text.drop (signLength text)).take n := by
  cases text with
  | nil => simp [withoutSign]
  | cons c rest =>
    rw [Numeral.signLength_cons]
    split
    · next hsign => simp [withoutSign_cons, hsign, Nat.add_comm]
    · next hsign =>
      cases n with
      | zero => rfl
      | succ n =>
        rw [Nat.zero_add, List.take_succ_cons, withoutSign_cons, if_neg hsign]
        rfl

theorem isExponent_take (text : List Char) :
    isExponent (text.take (exponentLength text)) = true := by
  cases text with
  | nil => rfl
  | cons e rest =>
    rw [Numeral.exponentLength_cons]
    split
    · next he =>
      split
      · rfl
      · next hdigits =>
        rw [Nat.add_assoc, Nat.add_comm, List.take_succ_cons, isExponent, withoutSign_take,
          Numeral.take_leading, List.all_takeWhile]
        rw [leading, List.length_eq_zero_iff] at hdigits
        simp [he, hdigits]
    · rfl

theorem toLower_of_begins (h : c.isDigit = true ∨ c = '.') : c.toLower = c := by
  rcases h with hdigit | rfl
  · unfold Char.toLower
    rw [dif_neg]
    simp only [Char.isDigit, Bool.and_eq_true, decide_eq_true_eq, UInt32.le_iff_toNat_le,
      ge_iff_le] at hdigit ⊢
    have hnine : '9'.val.toNat = 57 := rfl
    have hletter : 'A'.val.toNat = 65 := rfl
    omega
  · rfl

theorem ne_of_begins {d : Char} (hc : c.isDigit = true ∨ c = '.')
    (hd : ¬(d.isDigit = true ∨ d = '.')) : c ≠ d := by
  rintro rfl
  exact hd hc

/-- An exponent begins with neither a digit nor a point. -/
theorem isExponent_head (h : isExponent (c :: rest) = true) : c.isDigit = false ∧ c ≠ '.' := by
  have hc : c.toLower = 'e' := by
    simp only [isExponent, Bool.and_eq_true, decide_eq_true_eq] at h
    exact h.1.1
  have hbegins : ¬(c.isDigit = true ∨ c = '.') := fun hbegins => by
    rw [toLower_of_begins hbegins] at hc
    subst hc
    rcases hbegins with hbegins | hbegins <;> cases hbegins
  exact ⟨Bool.eq_false_iff.mpr fun hdigit => hbegins (.inl hdigit),
    fun hpoint => hbegins (.inr hpoint)⟩

theorem takeWhile_isExponent (h : isExponent exponent = true) :
    exponent.takeWhile Char.isDigit = [] ∧ exponent.dropWhile Char.isDigit = exponent := by
  cases exponent with
  | nil => exact ⟨rfl, rfl⟩
  | cons e rest =>
    have he := Bool.eq_false_iff.mp (isExponent_head h).1
    exact ⟨List.takeWhile_cons_of_neg he, List.dropWhile_cons_of_neg he⟩

section Digits
variable {whole fraction : List Char} (hwhole : ∀ c ∈ whole, c.isDigit = true)
include hwhole

theorem isNumeral_whole (hne : whole ≠ []) (hexponent : isExponent exponent = true) :
    isNumeral (whole ++ exponent) = true := by
  obtain ⟨htake, hdrop⟩ := takeWhile_isExponent hexponent
  have hpoint : ∀ rest, exponent ≠ '.' :: rest := by
    rintro rest rfl
    exact (isExponent_head hexponent).2 rfl
  unfold isNumeral
  rw [List.dropWhile_append_of_pos hwhole, List.takeWhile_append_of_pos hwhole, htake, hdrop]
  split
  · next rest => exact absurd rfl (hpoint rest)
  · simp [hne, hexponent]

theorem isNumeral_point (hfraction : ∀ c ∈ fraction, c.isDigit = true)
    (hne : whole ++ fraction ≠ []) (hexponent : isExponent exponent = true) :
    isNumeral (whole ++ '.' :: (fraction ++ exponent)) = true := by
  obtain ⟨htake, hdrop⟩ := takeWhile_isExponent hexponent
  unfold isNumeral
  rw [List.dropWhile_append_of_pos hwhole, List.takeWhile_append_of_pos hwhole,
    List.dropWhile_cons_of_neg (by decide), List.takeWhile_cons_of_neg (by decide), List.append_nil]
  simp only [List.dropWhile_append_of_pos hfraction, List.takeWhile_append_of_pos hfraction, htake,
    hdrop, hexponent, List.append_nil, Bool.and_true, Bool.not_eq_true', List.isEmpty_eq_false_iff]
  exact hne

end Digits

theorem isNumeral_take (h : decimalLength text ≠ 0) :
    isNumeral (text.take (decimalLength text)) = true := by
  have hmantissa : mantissaLength text ≠ 0 := fun hzero => h (if_pos hzero)
  have hlength : decimalLength text = mantissaLength text +
      exponentLength (text.drop (mantissaLength text)) := if_neg hmantissa
  have hexponent := isExponent_take (text.drop (mantissaLength text))
  have hwhole : text.take (leading Char.isDigit text) = text.takeWhile Char.isDigit :=
    Numeral.take_leading ..
  have hall (text : List Char) : ∀ c ∈ text.takeWhile Char.isDigit, c.isDigit = true :=
    List.all_eq_true.mp List.all_takeWhile
  rw [hlength, List.take_add]
  generalize (text.drop (mantissaLength text)).take _ = exponent at hexponent
  by_cases hrest : ∃ rest, text.drop (leading Char.isDigit text) = '.' :: rest
  · obtain ⟨rest, hrest⟩ := hrest
    rw [Numeral.mantissaLength_point hrest] at hmantissa ⊢
    split at hmantissa
    · exact absurd rfl hmantissa
    · next hdigits =>
      rw [if_neg hdigits, List.take_add, List.take_add, hwhole, ← List.drop_drop, hrest]
      have hne : text.takeWhile Char.isDigit ++ rest.takeWhile Char.isDigit ≠ [] := fun hempty => by
        obtain ⟨hwhole, hfraction⟩ := List.append_eq_nil_iff.mp hempty
        exact hdigits ⟨List.length_eq_zero_iff.mpr hwhole, List.length_eq_zero_iff.mpr hfraction⟩
      change isNumeral (_ ++ ['.'] ++ rest.take (leading Char.isDigit rest) ++ exponent) = true
      rw [Numeral.take_leading, List.append_assoc, List.append_assoc, List.singleton_append]
      exact isNumeral_point (hall text) (hall rest) hne hexponent
  · rw [Numeral.mantissaLength_whole (not_exists.mp hrest)] at hmantissa ⊢
    rw [hwhole]
    exact isNumeral_whole (hall text)
      (fun hempty => hmantissa (List.length_eq_zero_iff.mpr hempty)) hexponent

theorem begins_of_isNumeral (h : isNumeral (c :: rest) = true) : c.isDigit = true ∨ c = '.' := by
  by_cases hdigit : c.isDigit = true
  · exact .inl hdigit
  · unfold isNumeral at h
    rw [List.takeWhile_cons_of_neg hdigit, List.dropWhile_cons_of_neg hdigit] at h
    split at h
    · next heq => exact .inr (List.cons.inj heq).1
    · cases h

/-- A zero at its front is no marker's, as a digit, a point or an exponent comes after it. -/
theorem not_marker_of_isNumeral {m : Char} (h : isNumeral ('0' :: m :: rest) = true) :
    m.toLower ≠ 'x' ∧ m.toLower ≠ 'b' := by
  by_cases hm : m.isDigit = true ∨ m = '.'
  · rw [toLower_of_begins hm]
    exact ⟨ne_of_begins hm (by decide), ne_of_begins hm (by decide)⟩
  · obtain ⟨hdigit, hpoint⟩ := not_or.mp hm
    unfold isNumeral at h
    rw [List.dropWhile_cons_of_pos (by decide), List.dropWhile_cons_of_neg hdigit] at h
    split at h
    · next heq => exact absurd (List.cons.inj heq).1 hpoint
    · have hexponent := (Bool.and_eq_true_iff.mp h).2
      simp only [isExponent, Bool.and_eq_true, decide_eq_true_eq] at hexponent
      rw [hexponent.1.1]
      decide

theorem ofText?_of_isNumeral (h : isNumeral text = true) :
    ofText? text = some (Numeral.value text) := by
  cases text with
  | nil => cases h
  | cons c rest =>
    have hbegins := begins_of_isNumeral h
    have hother (d : Char) (hd : ¬(d.isDigit = true ∨ d = '.')) : c ≠ d := ne_of_begins hbegins hd
    have hspecial : ofUnsigned? (c :: rest) = some (value (c :: rest)) := by
      simp [ofUnsigned?, h, toLower_of_begins hbegins, hother 'i' (by decide),
        hother 'n' (by decide)]
    have hvalue : Numeral.value (c :: rest) = value (c :: rest) := by
      unfold Numeral.value
      split
      · next heq => exact absurd (List.cons.inj heq).1 (hother '-' (by decide))
      · next heq =>
        rw [heq] at h
        obtain ⟨hx, hb⟩ := not_marker_of_isNumeral h
        rw [if_neg hx, if_neg hb, heq]
      · rfl
    rw [hvalue, ← hspecial]
    unfold ofText?
    split
    · next heq => exact absurd (List.cons.inj heq).1 (hother '+' (by decide))
    · next heq => exact absurd (List.cons.inj heq).1 (hother '-' (by decide))
    · rfl

end Decimal

namespace Token.Rule

theorem number_eq {value : List Char → Option Float} {text : List Char} {location : Location}
    (h : value text = some (Numeral.value text)) :
    number value text location = some (Lexeme.numeral.token text location) := by
  rw [number, h]
  rfl

variable {text : List Char} {location : Location}

theorem transform_radix (h : Numeral.radixLength text ≠ 0) :
    radix.transform (text.take (Numeral.radixLength text)) location =
      some (Lexeme.numeral.token (text.take (Numeral.radixLength text)) location) :=
  number_eq (radixValue_take h)

theorem transform_decimal (h : Numeral.decimalLength text ≠ 0) :
    decimal.transform (text.take (Numeral.decimalLength text)) location =
      some (Lexeme.numeral.token (text.take (Numeral.decimalLength text)) location) :=
  number_eq (Decimal.ofText?_of_isNumeral (Decimal.isNumeral_take h))

/-- What a rule finds it does not decline. -/
theorem transform_isSome {rule : Rule} (hrule : rule ∈ all) {n : Nat}
    (hfound : rule.pattern.found? text = some n) (location : Location) :
    (rule.transform (text.take n) location).isSome = true := by
  simp only [all, List.mem_cons, List.not_mem_nil, or_false] at hrule
  rcases hrule with rfl | rfl | rfl | rfl | rfl | rfl
  · rw [found?_radix] at hfound
    obtain ⟨hne, rfl⟩ := Regex.nonzero_eq_some.mp hfound
    exact Option.isSome_of_eq_some (transform_radix hne)
  · rw [found?_decimal] at hfound
    obtain ⟨hne, rfl⟩ := Regex.nonzero_eq_some.mp hfound
    exact Option.isSome_of_eq_some (transform_decimal hne)
  all_goals rfl

end Token.Rule

end Homoicon
