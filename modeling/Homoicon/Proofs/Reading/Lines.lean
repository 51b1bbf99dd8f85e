import Homoicon.Proofs.Reading.Tokens

/-! A text is cut into tokens part by part: line by line, and at signs that no token goes on
with. -/
namespace Homoicon

/-- Whether a text consists of whole lines, each with the newline that ends it. -/
def Text.WholeLines (text : List Char) : Prop := text = [] ∨ ∃ line, text = line ++ ['\n']

theorem Text.Position.next_newline {text : List Char} (h : '\n' ∉ text) (position : Position) :
    (position.after text).next '\n' = ⟨position.line + 1, 0⟩ := by
  induction text generalizing position with
  | nil => rfl
  | cons c text ih =>
    obtain ⟨hc, htext⟩ := List.ne_and_not_mem_of_not_mem_cons h
    change (Position.after (position.next c) text).next '\n' = _
    rw [ih htext, next, if_neg (Ne.symm hc)]

/-- Whether no token goes on with a character, so that one ends before it. -/
structure IsBreak (d : Char) : Prop where
  hexDigit : Text.isHexDigit d = false
  marker : d.toLower ∉ ['b', 'e', 'x']
  sign : d ∉ ['+', '-', '.']
  namePart : isNamePart d = false
  inlineBlank : isInlineBlank d = false

instance (d : Char) : Decidable (IsBreak d) :=
  decidable_of_iff (Text.isHexDigit d = false ∧ d.toLower ∉ ['b', 'e', 'x'] ∧ d ∉ ['+', '-', '.'] ∧
      isNamePart d = false ∧ isInlineBlank d = false)
    ⟨fun ⟨hexDigit, marker, sign, namePart, inlineBlank⟩ =>
      ⟨hexDigit, marker, sign, namePart, inlineBlank⟩,
      fun h => ⟨h.hexDigit, h.marker, h.sign, h.namePart, h.inlineBlank⟩⟩

namespace IsBreak
variable {c d : Char} (h : IsBreak d)
include h

theorem digit : d.isDigit = false :=
  (Bool.or_eq_false_iff.mp (Bool.or_eq_false_iff.mp h.hexDigit).1).1

theorem ne_of_isDigit (hc : c.isDigit = true) : d ≠ c := by
  rintro rfl
  cases hc.symm.trans h.digit

theorem bit : Text.isBit d = false := by
  have hzero : d ≠ '0' := h.ne_of_isDigit rfl
  have hone : d ≠ '1' := h.ne_of_isDigit rfl
  simp [Text.isBit, hzero, hone]

theorem toLower_ne (hc : c ∈ ['b', 'e', 'x']) : d.toLower ≠ c := by
  rintro rfl
  exact h.marker hc

theorem ne_of_mem (hc : c ∈ ['+', '-', '.']) : d ≠ c := by
  rintro rfl
  exact h.sign hc

end IsBreak

namespace Numeral
variable {p isDigit : Char → Bool} {marker : Char}

def signLength : List Char → Nat
  | '+' :: _ | '-' :: _ => 1
  | _ => 0

theorem exponentLength_cons (e : Char) (rest : List Char) :
    exponentLength (e :: rest) =
      if e.toLower = 'e' then
        if leading Char.isDigit (rest.drop (signLength rest)) = 0 then 0
        else 1 + signLength rest + leading Char.isDigit (rest.drop (signLength rest))
      else 0 := rfl

section Bounds

theorem leading_le (p : Char → Bool) (text : List Char) : leading p text ≤ text.length :=
  (List.takeWhile_sublist p).length_le

theorem markedLength_le (marker : Char) (isDigit : Char → Bool) (text : List Char) :
    markedLength marker isDigit text ≤ text.length := by
  unfold markedLength
  split
  · next c rest =>
    have hdigits := leading_le isDigit rest
    split
    · exact Nat.add_le_add_right hdigits 2
    · exact Nat.zero_le _
  · exact Nat.zero_le _

theorem radixLength_le (text : List Char) : radixLength text ≤ text.length := by
  unfold radixLength
  split
  · exact markedLength_le ..
  · split
    · next rest _ =>
      have hrest := markedLength_le 'b' Text.isBit rest
      split
      · exact Nat.zero_le _
      · exact Nat.succ_le_succ hrest
    · exact markedLength_le ..

theorem mantissaLength_le (text : List Char) : mantissaLength text ≤ text.length := by
  unfold mantissaLength
  dsimp only
  split
  · next rest hrest =>
    have hwhole : leading Char.isDigit text + (rest.length + 1) = text.length := by
      rw [← List.length_cons (a := '.'), ← hrest, List.length_drop]
      exact Nat.add_sub_cancel' (leading_le _ _)
    have hfraction := leading_le Char.isDigit rest
    split <;> omega
  · exact leading_le ..

theorem signLength_le (text : List Char) : signLength text ≤ text.length := by
  unfold signLength
  split
  · exact Nat.succ_le_succ (Nat.zero_le _)
  · exact Nat.succ_le_succ (Nat.zero_le _)
  · exact Nat.zero_le _

theorem exponentLength_le (text : List Char) : exponentLength text ≤ text.length := by
  cases text with
  | nil => exact Nat.zero_le _
  | cons e rest =>
    have hsign := signLength_le rest
    have hdigits := leading_le Char.isDigit (rest.drop (signLength rest))
    rw [List.length_drop] at hdigits
    rw [exponentLength_cons, List.length_cons]
    split
    · split <;> omega
    · exact Nat.zero_le _

theorem length_le (text : List Char) : length text ≤ text.length := by
  unfold length decimalLength
  dsimp only
  split
  · exact radixLength_le text
  · have hmantissa := mantissaLength_le text
    have hexponent := exponentLength_le (text.drop (mantissaLength text))
    rw [List.length_drop] at hexponent
    split <;> omega

end Bounds

section Break
variable {d : Char} (text later : List Char)

theorem leading_break (hp : p d = false) : leading p (text ++ d :: later) = leading p text := by
  unfold leading
  rw [List.takeWhile_append, List.takeWhile_cons_of_neg (Bool.eq_false_iff.mp hp), List.append_nil]
  split
  · next hall => exact hall.symm
  · rfl

variable (hd : IsBreak d)
include hd

theorem markedLength_break (hdigit : isDigit d = false) (hmarker : d.toLower ≠ marker) :
    markedLength marker isDigit (text ++ d :: later) = markedLength marker isDigit text := by
  match text with
  | [] => exact markedLength_of_ne (hd.ne_of_isDigit rfl)
  | [c] =>
    by_cases hc : c = '0'
    · subst hc
      exact if_neg fun h => hmarker h.1
    · exact (markedLength_of_ne hc).trans (markedLength_of_ne hc).symm
  | c :: e :: rest =>
    by_cases hc : c = '0'
    · subst hc
      simp only [markedLength, List.cons_append, leading_break rest later hdigit]
    · exact (markedLength_of_ne hc).trans (markedLength_of_ne hc).symm

theorem radixLength_break : radixLength (text ++ d :: later) = radixLength text := by
  have hbits : ∀ text, markedLength 'b' Text.isBit (text ++ d :: later) =
      markedLength 'b' Text.isBit text := fun text =>
    markedLength_break text later hd hd.bit (hd.toLower_ne (by decide))
  unfold radixLength
  rw [markedLength_break text later hd hd.hexDigit (hd.toLower_ne (by decide))]
  cases text with
  | nil =>
    rw [List.nil_append]
    split
    · rfl
    · split
      · next heq => exact absurd (List.cons.inj heq).1 (hd.ne_of_mem (by decide))
      · exact hbits []
  | cons c rest =>
    by_cases hc : c = '-'
    · subst hc
      simp only [List.cons_append, hbits]
    · split
      · rfl
      · split
        · next heq => exact absurd (List.cons.inj heq).1 hc
        · split
          · next heq => exact absurd (List.cons.inj heq).1 hc
          · exact hbits (c :: rest)

/-- Neither a point nor a fraction comes before the break. -/
theorem mantissaLength_break : mantissaLength (text ++ d :: later) = mantissaLength text := by
  unfold mantissaLength
  dsimp only
  rw [leading_break text later hd.digit, List.drop_append_of_le_length (leading_le _ _)]
  cases text.drop (leading Char.isDigit text) with
  | nil =>
    rw [List.nil_append]
    split
    · next heq => exact absurd (List.cons.inj heq).1 (hd.ne_of_mem (by decide))
    · rfl
  | cons c rest =>
    by_cases hc : c = '.'
    · subst hc
      simp only [List.cons_append, leading_break rest later hd.digit]
    · split
      · next heq => exact absurd (List.cons.inj heq).1 hc
      · split
        · next heq => exact absurd (List.cons.inj heq).1 hc
        · rfl

theorem signLength_break : signLength (text ++ d :: later) = signLength text := by
  cases text with
  | nil =>
    rw [List.nil_append]
    unfold signLength
    split
    · next heq => exact absurd (List.cons.inj heq).1 (hd.ne_of_mem (by decide))
    · next heq => exact absurd (List.cons.inj heq).1 (hd.ne_of_mem (by decide))
    · rfl
  | cons c rest =>
    rw [List.cons_append]
    unfold signLength
    split <;> simp_all

theorem exponentLength_break : exponentLength (text ++ d :: later) = exponentLength text := by
  cases text with
  | nil => exact if_neg (hd.toLower_ne (by decide))
  | cons e rest =>
    have hdigits := leading_break (p := Char.isDigit) (rest.drop (signLength rest)) later hd.digit
    rw [List.cons_append, exponentLength_cons, exponentLength_cons, signLength_break rest later hd,
      List.drop_append_of_le_length (signLength_le _), hdigits]

theorem length_break : length (text ++ d :: later) = length text := by
  unfold length decimalLength
  dsimp only
  rw [radixLength_break text later hd, mantissaLength_break text later hd,
    List.drop_append_of_le_length (mantissaLength_le _), exponentLength_break _ later hd]

end Break

end Numeral

namespace Lexeme
variable (c : Char) (rest : List Char)

theorem scan_le : (scan c rest).2 ≤ rest.length + 1 := by
  have hnumeral := Numeral.length_le (c :: rest)
  have hname := Numeral.leading_le isNamePart rest
  have hblank := Numeral.leading_le isInlineBlank rest
  rw [List.length_cons] at hnumeral
  unfold scan scanChar
  repeat' split
  all_goals dsimp only
  all_goals omega

/-- No token that begins before a break goes beyond it. -/
theorem scan_break {d : Char} (hd : IsBreak d) (later : List Char) :
    scan c (rest ++ d :: later) = scan c rest := by
  unfold scan scanChar
  rw [← List.cons_append, Numeral.length_break _ later hd,
    Numeral.leading_break rest later hd.namePart, Numeral.leading_break rest later hd.inlineBlank]

end Lexeme

namespace Token

theorem ofChars_ne_nil (file : String) (position : Text.Position) (text : List Char) :
    ofChars file position text ≠ [] := by
  unfold ofChars
  split <;> exact List.cons_ne_nil _ _

/-- Before and after a break that is a token of its own, a text is cut without regard to each other.
-/
theorem ofChars_break {d : Char} {lexeme : Lexeme} (hd : IsBreak d)
    (hscan : ∀ later, Lexeme.scan d later = (lexeme, 1)) (file : String) (position : Text.Position)
    (text later : List Char) :
    ofChars file position (text ++ d :: later) =
      (ofChars file position text).dropLast ++
        lexeme.token [d] (.new file (position.after text).line (position.after text).column) ::
          ofChars file ((position.after text).next d) later := by
  fun_induction ofChars file position text with
  | case1 position =>
    rw [List.nil_append, ofChars, hscan]
    rfl
  | case2 position c rest found text ih =>
    -- the first token has the same length as without what follows the break
    rw [List.cons_append, ofChars, Lexeme.scan_break c rest hd, ← List.cons_append,
      List.take_append_of_le_length (Lexeme.scan_le c rest),
      List.drop_append_of_le_length (Lexeme.scan_le c rest), ih,
      List.dropLast_cons_of_ne_nil (ofChars_ne_nil _ _ _), List.cons_append,
      ← Text.Position.after_append, List.take_append_drop]

theorem eq_singleton_of_mem {d : Char} {lexeme : Lexeme} (hd : IsBreak d)
    (hscan : ∀ later, Lexeme.scan d later = (lexeme, 1)) {file : String} {position : Text.Position}
    {chars : List Char} :
    ∀ token ∈ ofChars file position chars, d ∈ token.fragments.before.toList →
      token.fragments.before = .singleton d := by
  refine forall_mem_ofChars (fun _ hmem => nomatch hmem) fun c rest _ hmem => ?_
  rw [Lexeme.before_token, String.toList_ofList] at hmem
  rw [Lexeme.before_token, ← String.toList_inj, String.toList_ofList, String.toList_singleton]
  have hfirst : c = d := by
    refine Decidable.byContradiction fun hne => ?_
    have hrest : d ∈ rest :=
      (List.mem_cons.mp (List.mem_of_mem_take hmem)).resolve_left (Ne.symm hne)
    obtain ⟨before, later, rfl, hbefore⟩ := List.eq_append_cons_of_mem hrest
    -- the token is cut as if the text ended before the break
    rw [Lexeme.scan_break c before hd later, ← List.cons_append,
      List.take_append_of_le_length (Lexeme.scan_le c before)] at hmem
    exact (List.mem_cons.mp (List.mem_of_mem_take hmem)).elim (Ne.symm hne) hbefore
  rw [hfirst, hscan]
  rfl

theorem ofChars_newline (file : String) (position : Text.Position) (text later : List Char) :
    ofChars file position (text ++ '\n' :: later) =
      (ofChars file position text).dropLast ++
        .space "\n" (.new file (position.after text).line (position.after text).column) ::
          ofChars file ((position.after text).next '\n') later :=
  @ofChars_break '\n' .blank (by decide)
    (fun _ => Lexeme.scan_eq_scanChar (by decide) (by decide) (by decide)) file position text later

/-- After whole lines, a text is cut as if it began there. -/
theorem ofChars_append {text : List Char} (h : Text.WholeLines text) (file : String)
    (position : Text.Position) (later : List Char) :
    ofChars file position (text ++ later) =
      (ofChars file position text).dropLast ++ ofChars file (position.after text) later := by
  rcases h with rfl | ⟨line, rfl⟩
  · rw [ofChars]
    rfl
  · rw [List.append_assoc, List.singleton_append, ofChars_newline, ofChars_newline, ofChars,
      Text.Position.after_append, List.dropLast_append_cons]
    exact List.append_cons ..

end Token
end Homoicon
