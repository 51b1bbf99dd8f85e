import Homoicon.Proofs.Token.Rules

/-! The numeric literal that a text is cut at is the longest one that the text begins with. -/
namespace Homoicon
open Text (isBit isHexDigit)

/-- Whether the first `n` characters are the longest prefix of a text that is of a class. Where `n`
is zero, none is. -/
structure IsLongest (P : List Char → Prop) (text : List Char) (n : Nat) : Prop where
  holds : n ≠ 0 → P (text.take n)
  le : ∀ {chunk : List Char}, P chunk → chunk <+: text → chunk.length ≤ n

namespace Numeral

/-- Whether a text consists of characters of a class, and of at least one. -/
def IsRun (p : Char → Bool) (text : List Char) : Prop := text ≠ [] ∧ ∀ c ∈ text, p c = true

/-- A zero, a marker and digits. -/
def IsMarked (markers : List Char) (isDigit : Char → Bool) (text : List Char) : Prop :=
  ∃ marker ∈ markers, ∃ digits, IsRun isDigit digits ∧ text = '0' :: marker :: digits

/-- A number in base sixteen, or in base two with a minus or without. -/
def IsRadix (text : List Char) : Prop :=
  IsMarked ['x', 'X'] isHexDigit text ∨ IsMarked ['b', 'B'] isBit text ∨
    ∃ rest, IsMarked ['b', 'B'] isBit rest ∧ text = '-' :: rest

/-- Digits, or a point with digits before it, after it or both. -/
def IsMantissa (text : List Char) : Prop :=
  IsRun Char.isDigit text ∨
    ∃ whole fraction, IsRun Char.isDigit (whole ++ fraction) ∧ text = whole ++ '.' :: fraction

def IsExponent (text : List Char) : Prop :=
  ∃ letter ∈ ['e', 'E'], ∃ sign ∈ [[], ['+'], ['-']], ∃ digits, IsRun Char.isDigit digits ∧
    text = letter :: (sign ++ digits)

def IsDecimal (text : List Char) : Prop :=
  ∃ mantissa exponent, IsMantissa mantissa ∧ (exponent = [] ∨ IsExponent exponent) ∧
    text = mantissa ++ exponent

def IsLiteral (text : List Char) : Prop := IsRadix text ∨ IsDecimal text

variable {p isDigit : Char → Bool} {text digits rest : List Char} {c marker : Char}
  {markers : List Char}

section Run

theorem IsRun.length_pos (h : IsRun p text) : 0 < text.length := List.length_pos_iff.mpr h.1

theorem leading_append (h : ∀ c ∈ digits, p c = true) (rest : List Char) :
    leading p (digits ++ rest) = digits.length + leading p rest := by
  rw [leading, List.takeWhile_append_of_pos h, List.length_append, leading]

theorem isLongest_leading (p : Char → Bool) (text : List Char) :
    IsLongest (IsRun p) text (leading p text) where
  holds h := by
    rw [take_leading]
    exact ⟨fun hnil => h (List.length_eq_zero_iff.mpr hnil), List.all_eq_true.mp List.all_takeWhile⟩
  le := by
    rintro chunk ⟨-, hall⟩ ⟨rest, rfl⟩
    rw [leading_append hall]
    exact Nat.le_add_right ..

end Run

section Radix

theorem toLower_eq_iff (small capital : Char) (hsmall : small.toLower = small)
    (hcapital : capital.toLower = small) (hval : capital.val + ('a'.val - 'A'.val) = small.val) :
    c.toLower = small ↔ c ∈ [small, capital] := by
  rw [List.mem_cons, List.mem_singleton]
  constructor
  · intro h
    unfold Char.toLower at h
    split at h
    · have hc : c.val + ('a'.val - 'A'.val) = small.val := congrArg Char.val h
      exact .inr (Char.ext ((UInt32.add_left_inj _).mp (hc.trans hval.symm)))
    · exact .inl h
  · rintro (rfl | rfl) <;> assumption

theorem IsMarked.length_pos (h : IsMarked markers isDigit text) : 0 < text.length := by
  obtain ⟨marker, -, digits, -, rfl⟩ := h
  exact Nat.succ_pos _

theorem IsRadix.length_pos (h : IsRadix text) : 0 < text.length := by
  rcases h with hhex | hbits | ⟨rest, -, rfl⟩
  · exact hhex.length_pos
  · exact hbits.length_pos
  · exact Nat.succ_pos _

theorem isLongest_marked (hmarkers : ∀ {c : Char}, c.toLower = marker ↔ c ∈ markers) :
    IsLongest (IsMarked markers isDigit) text (markedLength marker isDigit text) where
  holds h := by
    unfold markedLength at h ⊢
    split at h
    · next c rest =>
      split at h
      · next hmarked =>
        rw [if_pos hmarked, List.take_succ_cons, List.take_succ_cons]
        exact ⟨c, hmarkers.mp hmarked.1, _, (isLongest_leading isDigit rest).holds hmarked.2, rfl⟩
      · exact absurd rfl h
    · exact absurd rfl h
  le := by
    rintro _ ⟨c, hc, digits, hdigits, rfl⟩ ⟨rest, rfl⟩
    have hpos := hdigits.length_pos
    have hle : digits.length ≤ leading isDigit (digits ++ rest) :=
      (isLongest_leading isDigit _).le hdigits (List.prefix_append ..)
    have hmarked : c.toLower = marker ∧ leading isDigit (digits ++ rest) ≠ 0 :=
      ⟨hmarkers.mpr hc, by omega⟩
    rw [List.cons_append, List.cons_append, markedLength, if_pos hmarked]
    exact Nat.add_le_add_right hle 2

theorem isLongest_hexadecimal (text : List Char) :
    IsLongest (IsMarked ['x', 'X'] isHexDigit) text (markedLength 'x' isHexDigit text) :=
  isLongest_marked (toLower_eq_iff 'x' 'X' rfl rfl rfl)

theorem isLongest_binary (text : List Char) :
    IsLongest (IsMarked ['b', 'B'] isBit) text (markedLength 'b' isBit text) :=
  isLongest_marked (toLower_eq_iff 'b' 'B' rfl rfl rfl)

theorem markedLength_eq_zero (h : IsMarked ['b', 'B'] isBit text) (rest : List Char) :
    markedLength 'x' isHexDigit (text ++ rest) = 0 := by
  obtain ⟨c, hc, digits, -, rfl⟩ := h
  have hlower : c.toLower = 'b' := (toLower_eq_iff 'b' 'B' rfl rfl rfl).mpr hc
  rw [List.cons_append, List.cons_append, markedLength, hlower]
  exact if_neg fun h => absurd h.1 (by decide)

theorem radixLength_minus (rest : List Char) :
    radixLength ('-' :: rest) =
      if markedLength 'b' isBit rest = 0 then 0 else markedLength 'b' isBit rest + 1 := by
  rw [radixLength, markedLength_of_ne (by decide)]
  rfl

theorem radixLength_of_ne (hc : c ≠ '-') :
    radixLength (c :: rest) =
      if markedLength 'x' isHexDigit (c :: rest) ≠ 0 then markedLength 'x' isHexDigit (c :: rest)
      else markedLength 'b' isBit (c :: rest) := by
  unfold radixLength
  split
  · rfl
  · split
    · next heq => exact absurd (List.cons.inj heq).1 hc
    · rfl

theorem isLongest_radix (text : List Char) : IsLongest IsRadix text (radixLength text) where
  holds h := by
    cases text with
    | nil => exact absurd rfl h
    | cons c rest =>
      by_cases hc : c = '-'
      · subst hc
        rw [radixLength_minus] at h ⊢
        split at h
        · exact absurd rfl h
        · next hbits =>
          rw [if_neg hbits]
          exact .inr (.inr ⟨_, (isLongest_binary rest).holds hbits, rfl⟩)
      · rw [radixLength_of_ne hc] at h ⊢
        split at h
        · next hhex =>
          rw [if_pos hhex]
          exact .inl ((isLongest_hexadecimal _).holds hhex)
        · next hhex =>
          rw [if_neg hhex]
          exact .inr (.inl ((isLongest_binary _).holds h))
  le := by
    rintro chunk (hhex | hbits | ⟨bits, hbits, rfl⟩) hchunk
    · have hle := (isLongest_hexadecimal text).le hhex hchunk
      have hpos := hhex.length_pos
      unfold radixLength
      rwa [if_pos (by omega)]
    · obtain ⟨more, rfl⟩ := hchunk
      have hle := (isLongest_binary _).le hbits (List.prefix_append chunk more)
      have hzero := markedLength_eq_zero hbits more
      obtain ⟨marker, -, digits, -, rfl⟩ := hbits
      have hne : '0' ≠ '-' := by decide
      rw [List.cons_append] at hzero hle ⊢
      rw [radixLength_of_ne hne, if_neg (not_not_intro hzero)]
      exact hle
    · obtain ⟨more, rfl⟩ := hchunk
      have hle := (isLongest_binary _).le hbits (List.prefix_append bits more)
      have hpos := hbits.length_pos
      rw [List.cons_append, radixLength_minus, if_neg (by omega)]
      exact Nat.succ_le_succ hle

end Radix

section Decimal

theorem leading_le_mantissaLength (text : List Char) :
    leading Char.isDigit text ≤ mantissaLength text := by
  by_cases hpoint : ∃ rest, text.drop (leading Char.isDigit text) = '.' :: rest
  · obtain ⟨rest, hrest⟩ := hpoint
    rw [mantissaLength_point hrest]
    split <;> omega
  · exact Nat.le_of_eq (mantissaLength_whole (not_exists.mp hpoint)).symm

/-- Where the digits before a point end, so do those before it in a longer text. -/
theorem mantissaLength_append {whole fraction : List Char}
    (hdigits : IsRun Char.isDigit (whole ++ fraction)) (rest : List Char) :
    mantissaLength (whole ++ '.' :: (fraction ++ rest)) =
      whole.length + 1 + (fraction.length + leading Char.isDigit rest) := by
  obtain ⟨hwhole, hfraction⟩ := List.forall_mem_append.mp hdigits.2
  have hlength := hdigits.length_pos
  have hleading : leading Char.isDigit (whole ++ '.' :: (fraction ++ rest)) = whole.length := by
    rw [leading_append hwhole, leading_of_neg (by decide), Nat.add_zero]
  rw [mantissaLength_point (by rw [hleading, List.drop_left]), hleading, leading_append hfraction]
  rw [List.length_append] at hlength
  exact if_neg (by omega)

theorem isLongest_mantissa (text : List Char) :
    IsLongest IsMantissa text (mantissaLength text) where
  holds h := by
    by_cases hpoint : ∃ rest, text.drop (leading Char.isDigit text) = '.' :: rest
    · obtain ⟨rest, hrest⟩ := hpoint
      have hall (text : List Char) : ∀ c ∈ text.takeWhile Char.isDigit, c.isDigit = true :=
        List.all_eq_true.mp List.all_takeWhile
      rw [mantissaLength_point hrest] at h ⊢
      split at h
      · exact absurd rfl h
      · next hdigits =>
        refine .inr ⟨text.takeWhile Char.isDigit, rest.takeWhile Char.isDigit,
          ⟨fun hnil => hdigits ?_, List.forall_mem_append.mpr ⟨hall text, hall rest⟩⟩, ?_⟩
        · obtain ⟨hwhole, hfraction⟩ := List.append_eq_nil_iff.mp hnil
          exact ⟨List.length_eq_zero_iff.mpr hwhole, List.length_eq_zero_iff.mpr hfraction⟩
        · rw [if_neg hdigits, List.take_add, List.take_add, take_leading, ← List.drop_drop, hrest,
            List.append_assoc]
          change _ ++ (['.'] ++ rest.take (leading Char.isDigit rest)) = _
          rw [take_leading, List.singleton_append]
    · rw [mantissaLength_whole (not_exists.mp hpoint)] at h ⊢
      exact .inl ((isLongest_leading Char.isDigit text).holds h)
  le := by
    rintro chunk (hdigits | ⟨whole, fraction, hdigits, rfl⟩) hchunk
    · have hle := (isLongest_leading _ _).le hdigits hchunk
      exact Nat.le_trans hle (leading_le_mantissaLength text)
    · obtain ⟨more, rfl⟩ := hchunk
      rw [List.append_assoc, List.cons_append, mantissaLength_append hdigits, List.length_append,
        List.length_cons]
      omega

theorem mantissaLength_of_mantissa (h : IsMantissa text) (hdigit : c.isDigit = false)
    (hpoint : c ≠ '.') (rest : List Char) : mantissaLength (text ++ c :: rest) = text.length := by
  rcases h with hdigits | ⟨whole, fraction, hdigits, rfl⟩
  · have hleading : leading Char.isDigit (text ++ c :: rest) = text.length := by
      rw [leading_append hdigits.2, leading_of_neg hdigit, Nat.add_zero]
    rw [mantissaLength_whole fun more heq => ?_, hleading]
    rw [hleading, List.drop_left] at heq
    exact hpoint (List.cons.inj heq).1
  · rw [List.append_assoc, List.cons_append, mantissaLength_append hdigits, leading_of_neg hdigit,
      List.length_append, List.length_cons]
    omega

theorem signLength_append {sign : List Char} (hsign : sign ∈ [[], ['+'], ['-']])
    (hdigits : IsRun Char.isDigit digits) (rest : List Char) :
    signLength (sign ++ (digits ++ rest)) = sign.length := by
  simp only [List.mem_cons, List.not_mem_nil, or_false] at hsign
  rcases hsign with rfl | rfl | rfl
  · obtain ⟨d, digits, rfl⟩ := List.exists_cons_of_ne_nil hdigits.1
    have hd := hdigits.2 d (.head _)
    rw [List.nil_append, List.cons_append, signLength_cons]
    refine if_neg ?_
    rintro (rfl | rfl) <;> cases hd
  · rfl
  · rfl

theorem take_signLength (text : List Char) :
    text.take (signLength text) ∈ [[], ['+'], ['-']] := by
  cases text with
  | nil => exact .head _
  | cons c rest =>
    rw [signLength_cons]
    split
    · next hsign => rcases hsign with rfl | rfl <;> simp
    · exact .head _

theorem isLongest_exponent (text : List Char) :
    IsLongest IsExponent text (exponentLength text) where
  holds h := by
    cases text with
    | nil => exact absurd rfl h
    | cons e rest =>
      rw [exponentLength_cons] at h ⊢
      split at h
      · next he =>
        split at h
        · exact absurd rfl h
        · next hdigits =>
          rw [if_pos he, if_neg hdigits, Nat.add_assoc, Nat.add_comm, List.take_succ_cons,
            List.take_add]
          exact ⟨e, (toLower_eq_iff 'e' 'E' rfl rfl rfl).mp he, _, take_signLength rest, _,
            (isLongest_leading _ _).holds hdigits, rfl⟩
      · exact absurd rfl h
  le := by
    rintro _ ⟨e, he, sign, hsign, digits, hdigits, rfl⟩ ⟨more, rfl⟩
    have hlower : e.toLower = 'e' := (toLower_eq_iff 'e' 'E' rfl rfl rfl).mpr he
    have hpos := hdigits.length_pos
    have hle : digits.length ≤ leading Char.isDigit (digits ++ more) :=
      (isLongest_leading _ _).le hdigits (List.prefix_append ..)
    rw [List.cons_append, List.append_assoc, exponentLength_cons, if_pos hlower,
      signLength_append hsign hdigits, List.drop_left, if_neg (by omega), List.length_cons,
      List.length_append]
    omega

/-- An exponent begins with a letter, where no mantissa goes on. -/
theorem IsExponent.mantissaLength_eq {exponent : List Char} (h : IsExponent exponent)
    (hmantissa : IsMantissa text) (rest : List Char) :
    mantissaLength (text ++ (exponent ++ rest)) = text.length := by
  obtain ⟨letter, hletter, sign, -, digits, -, rfl⟩ := h
  simp only [List.mem_cons, List.not_mem_nil, or_false] at hletter
  rcases hletter with rfl | rfl
  · exact mantissaLength_of_mantissa hmantissa rfl (by decide) _
  · exact mantissaLength_of_mantissa hmantissa rfl (by decide) _

theorem IsMantissa.length_pos (h : IsMantissa text) : 0 < text.length := by
  rcases h with hdigits | ⟨whole, fraction, -, rfl⟩
  · exact hdigits.length_pos
  · rw [List.length_append, List.length_cons]
    omega

theorem IsDecimal.length_pos (h : IsDecimal text) : 0 < text.length := by
  obtain ⟨mantissa, exponent, hmantissa, -, rfl⟩ := h
  rw [List.length_append]
  exact Nat.add_pos_left hmantissa.length_pos _

theorem decimalLength_eq (h : mantissaLength text ≠ 0) :
    decimalLength text = mantissaLength text + exponentLength (text.drop (mantissaLength text)) :=
  if_neg h

theorem isLongest_decimal (text : List Char) : IsLongest IsDecimal text (decimalLength text) where
  holds h := by
    have hmantissa : mantissaLength text ≠ 0 := fun hzero => h (if_pos hzero)
    rw [decimalLength_eq hmantissa, List.take_add]
    refine ⟨_, _, (isLongest_mantissa text).holds hmantissa, ?_, rfl⟩
    by_cases hexponent : exponentLength (text.drop (mantissaLength text)) = 0
    · exact .inl (by rw [hexponent, List.take_zero])
    · exact .inr ((isLongest_exponent _).holds hexponent)
  le := by
    rintro _ ⟨mantissa, exponent, hmantissa, hexponent, rfl⟩ ⟨more, rfl⟩
    have hpos := hmantissa.length_pos
    have hle : mantissa.length ≤ mantissaLength (mantissa ++ (exponent ++ more)) :=
      (isLongest_mantissa _).le hmantissa (List.prefix_append ..)
    rw [List.append_assoc, List.length_append, decimalLength_eq (by omega)]
    rcases hexponent with rfl | hexponent
    · exact Nat.le_add_right_of_le hle
    · have hexact := hexponent.mantissaLength_eq hmantissa more
      have hlonger := (isLongest_exponent _).le hexponent (List.prefix_append exponent more)
      rw [hexact, List.drop_left]
      exact Nat.add_le_add_left hlonger _

end Decimal

section Literal

theorem IsLiteral.length_pos (h : IsLiteral text) : 0 < text.length :=
  h.elim IsRadix.length_pos IsDecimal.length_pos

/-- No decimal literal goes beyond the zero of a number in another base. -/
theorem decimalLength_le_of_radix (h : radixLength text ≠ 0) : decimalLength text ≤ 1 := by
  have hmarked : ∀ {markers isDigit chunk rest}, IsMarked markers isDigit chunk →
      (markers.all fun c => decide (c.isDigit = false ∧ c ≠ '.' ∧ c.toLower ≠ 'e')) →
        decimalLength (chunk ++ rest) = 1 := by
    rintro markers isDigit _ rest ⟨c, hc, digits, -, rfl⟩ hall
    obtain ⟨hdigit, hpoint, he⟩ := Text.of_mem hall hc
    have hzero : IsMantissa ['0'] :=
      .inl ⟨List.cons_ne_nil _ _, List.forall_mem_singleton.mpr rfl⟩
    have hmantissa : mantissaLength ('0' :: c :: (digits ++ rest)) = 1 :=
      mantissaLength_of_mantissa hzero hdigit hpoint (digits ++ rest)
    rw [List.cons_append, List.cons_append, decimalLength_eq (by omega), hmantissa, List.drop_one,
      List.tail_cons, exponentLength_cons, if_neg he]
  have htext := List.take_append_drop (radixLength text) text
  rcases (isLongest_radix text).holds h with hhex | hbits | ⟨rest, -, heq⟩
  · rw [← htext]
    exact Nat.le_of_eq (hmarked hhex (by decide))
  · rw [← htext]
    exact Nat.le_of_eq (hmarked hbits (by decide))
  · have hmantissa : mantissaLength text = 0 := by
      rw [← htext, heq, List.cons_append, mantissaLength_whole, leading_of_neg (by decide)]
      intro more
      rw [leading_of_neg (by decide), List.drop_zero]
      exact fun heq => absurd (List.cons.inj heq).1 (by decide)
    rw [decimalLength, hmantissa]
    exact Nat.zero_le 1

theorem isLongest_length (text : List Char) : IsLongest IsLiteral text (length text) where
  holds h := by
    unfold length at h ⊢
    split at h
    · next hradix =>
      rw [if_pos hradix]
      exact .inl ((isLongest_radix text).holds hradix)
    · next hradix =>
      rw [if_neg hradix]
      exact .inr ((isLongest_decimal text).holds h)
  le := by
    rintro chunk (hradix | hdecimal) hchunk
    · have hle := (isLongest_radix text).le hradix hchunk
      have hpos := hradix.length_pos
      rw [length, if_pos (by omega)]
      exact hle
    · have hle := (isLongest_decimal text).le hdecimal hchunk
      unfold length
      split
      · next hradix =>
        have hone := decimalLength_le_of_radix hradix
        omega
      · exact hle

end Literal

end Numeral
end Homoicon
