import Homoicon.Grammar.Escape
import Homoicon.Proofs.Failure
import Mathlib.Data.List.TakeWhile

/-! What a text between double quotes stands for, character by character. -/
namespace Homoicon.Escape
open Text (isHexDigit natOfDigits)

def signs : List Char := ['\'', '"', '\\', '\x7b', '\x7d']

/-- What stands for itself after a backslash only. -/
def special : List Char := ['\\', '"', '\x7b']

/-- The control character that a letter stands for after a backslash. -/
def control? : Char → Option Char
  | 'a' => some '\x07'
  | 'b' => some '\x08'
  | 'e' => some '\x1b'
  | 'f' => some '\x0c'
  | 'n' => some '\x0a'
  | 'r' => some '\x0d'
  | 't' => some '\x09'
  | 'v' => some '\x0b'
  | 'z' => some '\x00'
  | _ => none

def scalar? (digits : List Char) : Option Char :=
  if (natOfDigits 16 digits).isValidChar then some (Char.ofNat (natOfDigits 16 digits)) else none

/-- The character of a code point of `count` digits at the front of a text, and the rest. -/
def fixed? (count : Nat) (text : List Char) : Option (Char × List Char) :=
  if count ≤ text.length ∧ (text.take count).all isHexDigit then
    (scalar? (text.take count)).map (·, text.drop count)
  else none

/-- The character of a code point in braces at the front of a text, and the rest. -/
def braced? : List Char → Option (Char × List Char)
  | '\x7b' :: text =>
    let digits := text.takeWhile isHexDigit
    let rest := text.dropWhile isHexDigit
    if digits ≠ [] ∧ rest.head? = some '\x7d' then (scalar? digits).map (·, rest.tail) else none
  | _ => none

/-- The character that the escape at the front of a text stands for, without its backslash, and the
rest. -/
def next? : List Char → Option (Char × List Char)
  | [] => none
  | c :: rest =>
    if c ∈ signs then some (c, rest)
    else if c = 'x' then fixed? 2 rest
    else if c = 'u' then (braced? rest).or (fixed? 4 rest)
    else if c = 'U' then braced? rest
    else (control? c).map (·, rest)

/-- An escape without its backslash, and the character that it stands for. -/
inductive Stands : List Char → Char → Prop
  | sign {c : Char} (h : c ∈ signs) : Stands [c] c
  | control {letter c : Char} (h : control? letter = some c) : Stands [letter] c
  | fixed {letter c : Char} {digits : List Char}
      (hcount : letter = 'x' ∧ digits.length = 2 ∨ letter = 'u' ∧ digits.length = 4)
      (hdigits : ∀ d ∈ digits, isHexDigit d = true) (h : scalar? digits = some c) :
      Stands (letter :: digits) c
  | braced {letter c : Char} {digits : List Char} (hletter : letter = 'u' ∨ letter = 'U')
      (hne : digits ≠ []) (hdigits : ∀ d ∈ digits, isHexDigit d = true)
      (h : scalar? digits = some c) : Stands (letter :: '\x7b' :: (digits ++ ['\x7d'])) c

section Next
variable {text rest digits : List Char} {c : Char} {count : Nat}

theorem fixed?_eq_some_iff :
    fixed? count text = some (c, rest) ↔ ∃ digits, text = digits ++ rest ∧
      digits.length = count ∧ (∀ d ∈ digits, isHexDigit d = true) ∧ scalar? digits = some c := by
  unfold fixed?
  constructor
  · intro h
    split at h
    · next hdigits =>
      obtain ⟨hcount, hall⟩ := hdigits
      obtain ⟨d, hd, heq⟩ := Option.map_eq_some_iff.mp h
      cases heq
      exact ⟨text.take count, (List.take_append_drop ..).symm, List.length_take_of_le hcount,
        List.all_eq_true.mp hall, hd⟩
    · cases h
  · rintro ⟨digits, rfl, rfl, hdigits, hscalar⟩
    have hall : digits.all isHexDigit = true := List.all_eq_true.mpr hdigits
    simp [hall, hscalar]

theorem braced?_eq_some_iff :
    braced? text = some (c, rest) ↔ ∃ digits, text = '\x7b' :: (digits ++ '\x7d' :: rest) ∧
      digits ≠ [] ∧ (∀ d ∈ digits, isHexDigit d = true) ∧ scalar? digits = some c := by
  constructor
  · intro h
    unfold braced? at h
    split at h
    · next text =>
      dsimp only at h
      split at h
      · next hbraces =>
        obtain ⟨hne, hhead⟩ := hbraces
        obtain ⟨d, hd, heq⟩ := Option.map_eq_some_iff.mp h
        cases heq
        obtain ⟨rest, hrest⟩ := List.head?_eq_some_iff.mp hhead
        refine ⟨text.takeWhile isHexDigit, ?_, hne, fun d => List.mem_takeWhile_imp, hd⟩
        rw [hrest, List.tail_cons, ← hrest, List.takeWhile_append_dropWhile]
      · cases h
    · cases h
  · rintro ⟨digits, rfl, hne, hdigits, hscalar⟩
    have hclose : ¬isHexDigit '\x7d' = true := by decide
    have htake : (digits ++ '\x7d' :: rest).takeWhile isHexDigit = digits := by
      rw [List.takeWhile_append_of_pos hdigits, List.takeWhile_cons_of_neg hclose, List.append_nil]
    have hdrop : (digits ++ '\x7d' :: rest).dropWhile isHexDigit = '\x7d' :: rest := by
      rw [List.dropWhile_append_of_pos hdigits, List.dropWhile_cons_of_neg hclose]
    simp [braced?, htake, hdrop, hne, hscalar]

theorem braced?_of_isHexDigit (hdigits : ∀ d ∈ digits, isHexDigit d = true)
    (hlength : 0 < digits.length) : braced? (digits ++ rest) = none := by
  cases digits with
  | nil => cases hlength
  | cons d digits =>
    have hd : d ≠ '\x7b' := by
      rintro rfl
      exact absurd (hdigits _ (.head _)) (by decide)
    simp [braced?, hd]

theorem control?_ne {letter : Char} (h : control? letter = some c) :
    letter ∉ signs ∧ letter ∉ ['x', 'u', 'U'] := by
  unfold control? at h
  split at h <;> first | decide | cases h

theorem next?_eq_some_iff :
    next? text = some (c, rest) ↔ ∃ escape, text = escape ++ rest ∧ Stands escape c := by
  constructor
  · intro h
    unfold next? at h
    split at h
    · cases h
    · next letter text =>
      split at h
      · next hsign =>
        cases h
        exact ⟨[c], rfl, .sign hsign⟩
      · split at h
        · next hx =>
          obtain ⟨digits, rfl, hcount, hdigits, hscalar⟩ := fixed?_eq_some_iff.mp h
          exact ⟨letter :: digits, rfl, .fixed (.inl ⟨hx, hcount⟩) hdigits hscalar⟩
        · split at h
          · next hu =>
            rcases Option.or_eq_some_iff.mp h with h | ⟨-, h⟩
            · obtain ⟨digits, rfl, hne, hdigits, hscalar⟩ := braced?_eq_some_iff.mp h
              exact ⟨_, by simp, .braced (.inl hu) hne hdigits hscalar⟩
            · obtain ⟨digits, rfl, hcount, hdigits, hscalar⟩ := fixed?_eq_some_iff.mp h
              exact ⟨letter :: digits, rfl, .fixed (.inr ⟨hu, hcount⟩) hdigits hscalar⟩
          · split at h
            · next hu =>
              obtain ⟨digits, rfl, hne, hdigits, hscalar⟩ := braced?_eq_some_iff.mp h
              exact ⟨_, by simp, .braced (.inr hu) hne hdigits hscalar⟩
            · obtain ⟨d, hd, heq⟩ := Option.map_eq_some_iff.mp h
              cases heq
              exact ⟨[letter], rfl, .control hd⟩
  · rintro ⟨escape, rfl, hstands⟩
    cases hstands with
    | sign h => simp [next?, h]
    | control h =>
      obtain ⟨hsign, hletter⟩ := control?_ne h
      simp_all [next?]
    | @fixed letter c digits hcount hdigits h =>
      have hfixed : fixed? digits.length (digits ++ rest) = some (c, rest) :=
        fixed?_eq_some_iff.mpr ⟨digits, rfl, rfl, hdigits, h⟩
      rcases hcount with ⟨rfl, hcount⟩ | ⟨rfl, hcount⟩
      · rw [hcount] at hfixed
        simpa [next?, signs] using hfixed
      · rw [hcount] at hfixed
        simpa [next?, signs, braced?_of_isHexDigit hdigits (by omega)] using hfixed
    | @braced letter c digits hletter hne hdigits h =>
      have hbraced : braced? ('\x7b' :: (digits ++ '\x7d' :: rest)) = some (c, rest) :=
        braced?_eq_some_iff.mpr ⟨digits, rfl, hne, hdigits, h⟩
      rcases hletter with rfl | rfl <;> simp [next?, signs, hbraced]

end Next

/-- What a text between double quotes stands for, if all of it has a meaning. -/
def denotation? : List Char → Option (List Char)
  | [] => some []
  | c :: text =>
    if c = '\\' then
      match _ : next? text with
      | some (meant, rest) => (meant :: ·) <$> denotation? rest
      | none => none
    else if c ∈ special then none
    else (c :: ·) <$> denotation? text
termination_by text => text.length
decreasing_by
  · obtain ⟨escape, rfl, -⟩ := next?_eq_some_iff.mp ‹_›
    simp only [List.length_cons, List.length_append]
    omega
  · simp

/-- The same, without a reader: the text is characters that stand for themselves, and escapes. -/
inductive Denotes : List Char → List Char → Prop
  | nil : Denotes [] []
  | plain {c : Char} {text value : List Char} (hc : c ∉ special) (h : Denotes text value) :
      Denotes (c :: text) (c :: value)
  | escape {c : Char} {escape text value : List Char} (hstands : Stands escape c)
      (h : Denotes text value) : Denotes ('\\' :: (escape ++ text)) (c :: value)

theorem denotation?_eq_some_iff {text value : List Char} :
    denotation? text = some value ↔ Denotes text value := by
  constructor
  · intro h
    fun_induction denotation? text generalizing value with
    | case1 =>
      cases h
      exact .nil
    | case2 text meant rest hnext ih =>
      obtain ⟨later, hlater, rfl⟩ := Option.map_eq_some_iff.mp h
      obtain ⟨escape, rfl, hstands⟩ := next?_eq_some_iff.mp hnext
      exact .escape hstands (ih hlater)
    | case3 => cases h
    | case4 => cases h
    | case5 c text hslash hspecial ih =>
      obtain ⟨later, hlater, rfl⟩ := Option.map_eq_some_iff.mp h
      exact .plain hspecial (ih hlater)
  · intro h
    induction h with
    | nil => rw [denotation?]
    | @plain c text value hc h ih =>
      have hslash : c ≠ '\\' := by
        rintro rfl
        exact hc (.head _)
      rw [denotation?, if_neg hslash, if_neg hc, ih]
      rfl
    | @escape c escape text value hstands h ih =>
      have hnext : next? (escape ++ text) = some (c, text) :=
        next?_eq_some_iff.mpr ⟨escape, rfl, hstands⟩
      rw [denotation?, if_pos rfl]
      split
      · next meant rest heq =>
        cases hnext.symm.trans heq
        rw [ih]
        rfl
      · next heq => cases hnext.symm.trans heq

section Agreement
variable {text other value later digits chars : List Char} {letter c : Char}

theorem Denotes.append (h : Denotes text value) (hother : Denotes other later) :
    Denotes (text ++ other) (value ++ later) := by
  induction h with
  | nil => exact hother
  | plain hc h ih => exact .plain hc ih
  | escape hstands h ih =>
    rw [List.cons_append, List.append_assoc]
    exact .escape hstands ih

theorem denotes_of_plain (h : ∀ c ∈ text, c ∉ special) : Denotes text text := by
  induction text with
  | nil => exact .nil
  | cons c text ih =>
    obtain ⟨hc, htext⟩ := List.forall_mem_cons.mp h
    exact .plain hc (ih htext)

theorem codePoint_eq_ok_iff : codePoint digits = .ok c ↔ scalar? digits = some c := by
  unfold codePoint scalar?
  dsimp only
  split <;> simp

theorem digitCount?_eq_some_iff {count : Nat} :
    digitCount? letter = some count ↔ letter = 'x' ∧ count = 2 ∨ letter = 'u' ∧ count = 4 := by
  unfold digitCount?
  split <;> simp_all [eq_comm]

/-- Of the signs that stand for themselves, the decoder is given those that are no braces. -/
theorem letter?_eq_some_iff (h : letter ≠ '\x7b' ∧ letter ≠ '\x7d') :
    letter? letter = some c ↔ control? letter = some c ∨ letter ∈ signs ∧ letter = c := by
  unfold letter? control?
  split <;> simp_all [signs]

theorem decode_of_digitCount? {count : Nat} (h : digitCount? letter = some count) :
    decode (letter :: text) = .ok chars ↔
      ∃ c rest, chars = c :: rest ∧ fixed? count text = some (c, rest) := by
  unfold decode fixed?
  simp only [h]
  constructor
  · intro hok
    split at hok
    · cases hok
    · next hdigits =>
      obtain ⟨c, hcode, rfl⟩ := map_eq_ok.mp hok
      have hfixed : count ≤ text.length ∧ (text.take count).all isHexDigit = true := by
        simpa [not_or] using hdigits
      rw [if_pos hfixed, codePoint_eq_ok_iff.mp hcode]
      exact ⟨c, _, rfl, rfl⟩
  · rintro ⟨c, rest, rfl, hfixed⟩
    split at hfixed
    · next hdigits =>
      obtain ⟨d, hd, heq⟩ := Option.map_eq_some_iff.mp hfixed
      cases heq
      have hshort : ¬(text.length < count ∨ (!(text.take count).all isHexDigit) = true) := by
        simpa [not_or] using hdigits
      rw [if_neg hshort, codePoint_eq_ok_iff.mpr hd]
      rfl
    · cases hfixed

theorem decode_of_letter (h : digitCount? letter = none) :
    decode (letter :: text) = .ok chars ↔ ∃ c, chars = c :: text ∧ letter? letter = some c := by
  unfold decode
  simp only [h]
  cases letter? letter <;> simp [eq_comm]

theorem ne_brace_of_isHexDigit (h : isHexDigit c = true) : c ≠ '\x7b' ∧ c ≠ '\x7d' := by
  constructor
  all_goals
    rintro rfl
    cases h

/-- The decoder of what follows a backslash reads every escape that has no braces. -/
theorem decode_eq_ok_iff :
    decode text = .ok chars ↔ ∃ escape c rest, text = escape ++ rest ∧ chars = c :: rest ∧
      Stands escape c ∧ ∀ d ∈ escape, d ≠ '\x7b' ∧ d ≠ '\x7d' := by
  constructor
  · intro h
    cases text with
    | nil => cases h
    | cons letter text =>
      cases hcount : digitCount? letter with
      | some count =>
        obtain ⟨c, rest, rfl, hfixed⟩ := (decode_of_digitCount? hcount).mp h
        obtain ⟨digits, rfl, rfl, hdigits, hscalar⟩ := fixed?_eq_some_iff.mp hfixed
        have hletter := digitCount?_eq_some_iff.mp hcount
        refine ⟨letter :: digits, c, rest, rfl, rfl, .fixed hletter hdigits hscalar, ?_⟩
        refine List.forall_mem_cons.mpr ⟨?_, fun d hd => ne_brace_of_isHexDigit (hdigits d hd)⟩
        rcases hletter with ⟨rfl, -⟩ | ⟨rfl, -⟩ <;> decide
      | none =>
        obtain ⟨c, rfl, hc⟩ := (decode_of_letter hcount).mp h
        have hbraces : letter ≠ '\x7b' ∧ letter ≠ '\x7d' := by
          constructor
          all_goals
            rintro rfl
            cases hc
        have hstands : Stands [letter] c := by
          rcases (letter?_eq_some_iff hbraces).mp hc with hcontrol | ⟨hsign, rfl⟩
          · exact .control hcontrol
          · exact .sign hsign
        exact ⟨[letter], c, text, rfl, rfl, hstands, List.forall_mem_singleton.mpr hbraces⟩
  · rintro ⟨escape, c, rest, rfl, rfl, hstands, hbraces⟩
    cases hstands with
    | sign h =>
      have hbraces := List.forall_mem_singleton.mp hbraces
      have hcount : digitCount? c = none := by
        simp only [signs, List.mem_cons, List.not_mem_nil, or_false] at h
        rcases h with rfl | rfl | rfl | rfl | rfl <;> rfl
      have hletter := (letter?_eq_some_iff hbraces).mpr (.inr ⟨h, rfl⟩)
      exact (decode_of_letter hcount).mpr ⟨c, rfl, hletter⟩
    | @control letter c h =>
      have hbraces := List.forall_mem_singleton.mp hbraces
      have hcount : digitCount? letter = none := by
        unfold control? at h
        split at h <;> first | rfl | cases h
      have hletter := (letter?_eq_some_iff hbraces).mpr (.inl h)
      exact (decode_of_letter hcount).mpr ⟨c, rfl, hletter⟩
    | @fixed letter c digits hcount hdigits h =>
      have hfixed : fixed? digits.length (digits ++ rest) = some (c, rest) :=
        fixed?_eq_some_iff.mpr ⟨digits, rfl, rfl, hdigits, h⟩
      exact (decode_of_digitCount? (digitCount?_eq_some_iff.mpr hcount)).mpr ⟨c, rest, rfl, hfixed⟩
    | @braced letter c digits hletter hne hdigits h =>
      exact absurd rfl (hbraces '\x7b' (.tail _ (.head _))).1

theorem decodeBraced_eq_ok_iff :
    decodeBraced text = .ok c ↔ ∃ digits, text = '\x7b' :: (digits ++ ['\x7d']) ∧ digits ≠ [] ∧
      (∀ d ∈ digits, isHexDigit d = true) ∧ scalar? digits = some c := by
  constructor
  · intro h
    unfold decodeBraced at h
    split at h
    · next rest =>
      split at h
      · next hbraces =>
        obtain ⟨hlast, hne, hall⟩ := hbraces
        obtain ⟨digits, rfl⟩ := List.getLast?_eq_some_iff.mp hlast
        rw [List.dropLast_concat] at hne hall h
        exact ⟨digits, rfl, hne, List.all_eq_true.mp hall, codePoint_eq_ok_iff.mp h⟩
      · cases h
    · cases h
  · rintro ⟨digits, rfl, hne, hdigits, hscalar⟩
    have hall : digits.all isHexDigit = true := List.all_eq_true.mpr hdigits
    have hcode := codePoint_eq_ok_iff.mpr hscalar
    simp [decodeBraced, hne, hall, hcode]

end Agreement

end Homoicon.Escape
