import Homoicon.Diagnostic
import Homoicon.Proofs.Token.Cutting

/-! A line of a text with a caret under one of its columns. -/
namespace Homoicon
namespace Text

/-- The line of a text that has the given number of newlines before it, without what ends it: a
newline, a carriage return and a newline, or the end of the text. -/
def HasLine (text : List Char) (index : Nat) (line : List Char) : Prop :=
  ∃ before ending after, text = before ++ line ++ ending ++ after ∧
    (before = [] ∨ before.getLast? = some '\n') ∧ before.count '\n' = index ∧ '\n' ∉ line ∧
    (ending = ['\r', '\n'] ∨ ending = ['\n'] ∧ line.getLast? ≠ some '\r' ∨
      ending = [] ∧ after = [])

section Lines
variable {line rest text : List Char} {lines : List (List Char)} {c : Char}

theorem splitLines_cons_of_ne (h : c ≠ '\n') (rest : List Char) :
    splitLines (c :: rest) =
      match splitLines rest with
      | [] => [[c]]
      | line :: lines => (c :: line) :: lines :=
  splitLines.eq_3 c rest h

theorem splitLines_newline (h : '\n' ∉ line) (rest : List Char) :
    splitLines (line ++ '\n' :: rest) = (line ++ ['\n']) :: splitLines rest := by
  induction line with
  | nil => rw [List.nil_append, splitLines, List.nil_append]
  | cons c line ih =>
    obtain ⟨hc, hline⟩ := not_or.mp (mt List.mem_cons.mpr h)
    rw [List.cons_append, splitLines_cons_of_ne (Ne.symm hc), ih hline]
    rfl

theorem splitLines_of_not_mem (h : '\n' ∉ line) (hne : line ≠ []) : splitLines line = [line] := by
  induction line with
  | nil => exact absurd rfl hne
  | cons c line ih =>
    obtain ⟨hc, hline⟩ := not_or.mp (mt List.mem_cons.mpr h)
    rw [splitLines_cons_of_ne (Ne.symm hc)]
    cases line with
    | nil => rfl
    | cons d line => rw [ih hline (List.cons_ne_nil _ _)]

def joined (lines : List (List Char)) : List Char := lines.flatMap (· ++ ['\n'])

theorem joined_cons : joined (line :: lines) = line ++ '\n' :: joined lines := by
  simp [joined]

theorem splitLines_joined (h : ∀ line ∈ lines, '\n' ∉ line) (rest : List Char) :
    splitLines (joined lines ++ rest) = lines.map (· ++ ['\n']) ++ splitLines rest := by
  induction lines with
  | nil => rfl
  | cons line lines ih =>
    obtain ⟨hline, hlines⟩ := List.forall_mem_cons.mp h
    rw [joined_cons, List.append_assoc, List.cons_append, splitLines_newline hline, ih hlines]
    rfl

theorem count_joined (h : ∀ line ∈ lines, '\n' ∉ line) :
    (joined lines).count '\n' = lines.length := by
  induction lines with
  | nil => rfl
  | cons line lines ih =>
    obtain ⟨hline, hlines⟩ := List.forall_mem_cons.mp h
    rw [joined_cons, List.count_append, List.count_cons_self, ih hlines,
      List.count_eq_zero.mpr hline, Nat.zero_add, List.length_cons]

theorem joined_ends (lines : List (List Char)) :
    joined lines = [] ∨ (joined lines).getLast? = some '\n' := by
  rcases List.eq_nil_or_concat lines with rfl | ⟨earlier, line, rfl⟩
  · exact .inl rfl
  · exact .inr (by simp [joined])

theorem exists_joined (text : List Char) :
    ∃ lines line, text = joined lines ++ line ∧ (∀ l ∈ lines, '\n' ∉ l) ∧ '\n' ∉ line := by
  induction text using List.reverseRecOn with
  | nil => exact ⟨[], [], rfl, List.forall_mem_nil _, List.not_mem_nil⟩
  | append_singleton text c ih =>
    obtain ⟨lines, line, rfl, hlines, hline⟩ := ih
    by_cases hc : c = '\n'
    · subst hc
      refine ⟨lines ++ [line], [], by simp [joined], ?_, List.not_mem_nil⟩
      exact List.forall_mem_append.mpr ⟨hlines, List.forall_mem_singleton.mpr hline⟩
    · refine ⟨lines, line ++ [c], List.append_assoc .., hlines, ?_⟩
      simp [hline, Ne.symm hc]

theorem after_joined (hlines : ∀ l ∈ lines, '\n' ∉ l) (hline : '\n' ∉ line) :
    ({} : Position).after (joined lines ++ line) = ⟨lines.length, line.length⟩ := by
  have hends : (joined lines).reverse.takeWhile (· ≠ '\n') = [] := by
    rcases joined_ends lines with hnil | hlast
    · simp [hnil]
    · rw [← List.head?_reverse] at hlast
      obtain ⟨rest, hrest⟩ := List.head?_eq_some_iff.mp hlast
      simp [hrest]
  have hpass : ∀ c ∈ line.reverse, decide (c ≠ '\n') = true := by
    intro c hc
    rw [decide_eq_true_eq]
    rintro rfl
    exact hline (List.mem_reverse.mp hc)
  rw [Position.after_eq, List.count_append, count_joined hlines, List.count_eq_zero.mpr hline,
    List.reverse_append, List.takeWhile_append_of_pos hpass, hends]
  simp

theorem trimTerminator_of_not_mem (h : '\n' ∉ line) : trimTerminator line = line := by
  unfold trimTerminator
  rcases List.eq_nil_or_concat line with rfl | ⟨front, c, rfl⟩
  · rfl
  · have hc : c ≠ '\n' := by
      rintro rfl
      simp at h
    rw [List.concat_eq_append, List.reverse_append, List.reverse_singleton, List.singleton_append]
    split <;> simp_all

theorem trimTerminator_newline (h : line.getLast? ≠ some '\r') :
    trimTerminator (line ++ ['\n']) = line := by
  unfold trimTerminator
  rcases List.eq_nil_or_concat line with rfl | ⟨front, c, rfl⟩
  · rfl
  · have hc : c ≠ '\r' := by
      rintro rfl
      simp at h
    simp only [List.concat_eq_append, List.reverse_append, List.reverse_singleton,
      List.singleton_append]
    split <;> simp_all

theorem trimTerminator_return (line : List Char) :
    trimTerminator (line ++ ['\r', '\n']) = line := by
  simp [trimTerminator]

/-- The line that begins after some lines and goes on with `line` is listed after them. -/
theorem lines_joined {ending after : List Char} (hlines : ∀ l ∈ lines, '\n' ∉ l)
    (hline : '\n' ∉ line) (hne : line ++ ending ≠ [])
    (hending : ending = ['\r', '\n'] ∨ ending = ['\n'] ∧ line.getLast? ≠ some '\r' ∨
      ending = [] ∧ after = []) :
    (Text.lines (joined lines ++ (line ++ ending ++ after)))[lines.length]? = some line := by
  have hindex : lines.length = (lines.map (· ++ ['\n'])).length := (List.length_map _).symm
  unfold Text.lines
  rw [splitLines_joined hlines, List.getElem?_map, hindex,
    List.getElem?_append_right (Nat.le_refl _), Nat.sub_self]
  rcases hending with rfl | ⟨rfl, hlast⟩ | ⟨rfl, rfl⟩
  · have hreturn : '\n' ∉ line ++ ['\r'] := by simp [hline]
    have hsplit := splitLines_newline hreturn after
    simp only [List.append_assoc, List.cons_append, List.nil_append] at hsplit ⊢
    rw [hsplit, List.getElem?_cons_zero, Option.map_some, trimTerminator_return]
  · have hsplit := splitLines_newline hline after
    simp only [List.append_assoc, List.cons_append, List.nil_append]
    rw [hsplit, List.getElem?_cons_zero, Option.map_some, trimTerminator_newline hlast]
  · rw [List.append_nil] at hne
    rw [List.append_nil, List.append_nil, splitLines_of_not_mem hline hne, List.getElem?_cons_zero,
      Option.map_some, trimTerminator_of_not_mem hline]

/-- Where a line goes on, up to what ends it. Only between a carriage return and its newline is the
line at its end already. -/
theorem exists_ending {back : List Char} (hline : '\n' ∉ line)
    (hinside : line.getLast? = some '\r' → back.head? ≠ some '\n') :
    ∃ more ending after, back = more ++ ending ++ after ∧ '\n' ∉ line ++ more ∧
      (ending = ['\r', '\n'] ∨ ending = ['\n'] ∧ (line ++ more).getLast? ≠ some '\r' ∨
        ending = [] ∧ after = []) := by
  by_cases hback : '\n' ∈ back
  · obtain ⟨more, after, rfl, hmore⟩ := List.eq_append_cons_of_mem hback
    have hwhole : '\n' ∉ line ++ more := by simp [hline, hmore]
    by_cases hlast : (line ++ more).getLast? = some '\r'
    · rcases List.eq_nil_or_concat more with rfl | ⟨more, c, rfl⟩
      · rw [List.append_nil] at hlast
        exact absurd rfl (hinside hlast)
      · obtain rfl : c = '\r' := by simpa using hlast
        refine ⟨more, ['\r', '\n'], after, by simp, ?_, .inl rfl⟩
        simp_all
    · exact ⟨more, ['\n'], after, by simp, hwhole, .inr (.inl ⟨rfl, hlast⟩)⟩
  · exact ⟨back, [], [], by simp, by simp [hline, hback], .inr (.inr ⟨rfl, rfl⟩)⟩

end Lines

/-- Every point of a text with more text after it is on a line of the text, and not past the end of
that line unless it is between a carriage return and a newline. -/
theorem exists_hasLine {front back : List Char} (hback : back ≠ [])
    (hinside : front.getLast? = some '\r' → back.head? ≠ some '\n') :
    ∃ line, HasLine (front ++ back) (({} : Position).after front).line line ∧
      (({} : Position).after front).column ≤ line.length ∧
      (lines (front ++ back))[(({} : Position).after front).line]? = some line := by
  obtain ⟨earlier, line, rfl, hearlier, hline⟩ := exists_joined front
  have hlast : line.getLast? = some '\r' → back.head? ≠ some '\n' := by
    intro hreturn
    refine hinside ?_
    rw [List.getLast?_append, hreturn]
    rfl
  obtain ⟨more, ending, after, rfl, hwhole, hending⟩ := exists_ending hline hlast
  have hne : line ++ more ++ ending ≠ [] := by
    rcases hending with rfl | ⟨rfl, -⟩ | ⟨rfl, rfl⟩ <;> simp_all
  have hlisted := lines_joined hearlier hwhole hne hending
  rw [after_joined hearlier hline]
  refine ⟨line ++ more, ⟨joined earlier, ending, after, by simp, joined_ends earlier,
    count_joined hearlier, hwhole, hending⟩, by simp, ?_⟩
  simpa using hlisted

end Text

/-- Three rows that show a line and put a caret under one of its columns: in each of them the first
bar stands in the column `bar`, the line begins two columns further on, and the caret stands as many
columns after its beginning as it is to. -/
structure Underlines (number : Nat) (line : List Char) (column bar : Nat)
    (top middle bottom : List Char) : Prop where
  rows : ∀ row ∈ [top, middle, bottom], '\n' ∉ row
  bars : ∀ row ∈ [top, middle, bottom], row[bar]? = some '|' ∧ row.idxOf '|' = bar
  numbered : (toString number).toList ++ [' '] <:+ middle.take bar
  line : middle.drop (bar + 2) = line
  caret : bottom[bar + 2 + column]? = some '^' ∧ bottom.idxOf '^' = bar + 2 + column

/-- An excerpt of a text shows the line that a place is on, and a caret under the place's column.
-/
def Place.Shown (place : Place) (text excerpt : String) : Prop :=
  ∃ line bar top middle bottom, Text.HasLine text.toList place.line line ∧
    place.column ≤ line.length ∧
    excerpt.toList = top ++ '\n' :: (middle ++ '\n' :: bottom) ∧
    Underlines (place.line + 1) line place.column bar top middle bottom

section Excerpt
variable {place : Place} {source : String} {line : List Char}

theorem isDigit_of_mem_toString {n : Nat} {c : Char} (h : c ∈ (toString n).toList) :
    c.isDigit = true := by
  have hdigits : (toString n).toList = Nat.toDigits 10 n := String.toList_ofList
  rw [hdigits] at h
  exact Nat.isDigit_of_mem_toDigits (by decide) (by decide) h

theorem first_after {c : Char} {front : List Char} (h : c ∉ front) (rest : List Char) {n : Nat}
    (hn : front.length = n) :
    (front ++ c :: rest)[n]? = some c ∧ (front ++ c :: rest).idxOf c = n := by
  subst hn
  simp [List.idxOf_append, h]

/-- The three rows of an excerpt, for a line number with any number of digits. -/
theorem underlines_rows (place : Place) {line : List Char} (hline : '\n' ∉ line) :
    let number := toString (place.line + 1)
    let width := max 3 number.length
    let margin := List.replicate (width + 1) ' '
    let numbered := List.replicate (width - number.length) ' ' ++ (number.toList ++ [' '])
    Underlines (place.line + 1) line place.column (width + 1) (margin ++ '|' :: [])
      (numbered ++ '|' :: ' ' :: line)
      (margin ++ '|' :: ' ' :: (List.replicate place.column ' ' ++ ['^'])) := by
  intro number width margin numbered
  have hmargin : margin.length = width + 1 := List.length_replicate
  have hnumbered : numbered.length = width + 1 := by
    have hwidth : number.length ≤ width := Nat.le_max_right 3 number.length
    simp only [numbered, List.length_append, List.length_replicate, String.length_toList,
      List.length_singleton]
    omega
  have hchars : ∀ c ∈ numbered, c = ' ' ∨ c.isDigit = true := by
    intro c hc
    simp only [numbered, List.mem_append, List.mem_replicate, List.mem_singleton] at hc
    rcases hc with ⟨-, hspace⟩ | hdigit | hspace
    · exact .inl hspace
    · exact .inr (isDigit_of_mem_toString hdigit)
    · exact .inl hspace
  have hnewline : '\n' ∉ numbered := fun hmem => by simpa using hchars _ hmem
  have hbar : '|' ∉ numbered := fun hmem => by simpa using hchars _ hmem
  have hspaces : ∀ c, c ≠ ' ' → c ∉ margin := fun c hc hmem => hc (List.eq_of_mem_replicate hmem)
  refine ⟨?rows, ?bars, ?numbered, ?line, ?caret⟩
  case rows => simp [hspaces, hnewline, hline]
  case bars =>
    have hblank : '|' ∉ margin := hspaces '|' (by decide)
    simp only [List.forall_mem_cons]
    exact ⟨first_after hblank _ hmargin, first_after hbar _ hnumbered,
      first_after hblank _ hmargin, List.forall_mem_nil _⟩
  case numbered =>
    rw [List.take_left' hnumbered]
    exact List.suffix_append _ _
  case line =>
    rw [List.append_cons, List.append_cons, List.drop_left' (by simp [hnumbered])]
  case caret =>
    have hbefore : '^' ∉ margin ++ '|' :: ' ' :: List.replicate place.column ' ' := by
      simp [hspaces]
    have hlength : (margin ++ '|' :: ' ' :: List.replicate place.column ' ').length =
        width + 1 + 2 + place.column := by
      simp [hmargin]
      omega
    have hrow := first_after hbefore [] hlength
    rwa [List.append_assoc, List.cons_append, List.cons_append] at hrow

/-- An excerpt shows the line that its place is on, if the text has one. -/
theorem Place.shown_excerpt {place : Place} {source : String} {line : List Char}
    (hline : Text.HasLine source.toList place.line line)
    (hlisted : (Text.lines source.toList)[place.line]? = some line)
    (hcolumn : place.column ≤ line.length) :
    place.Shown source (excerpt place source .identity) := by
  obtain ⟨_, _, _, -, -, -, hnewline, -⟩ := id hline
  have hsource : sourceLine source place.line = String.ofList line := by
    rw [sourceLine, hlisted]
  refine ⟨line, _, _, _, _, hline, hcolumn, ?_, underlines_rows place hnewline⟩
  simp only [excerpt, hsource, Highlight.identity, Text.padLeft, Text.spaces]
  simp [List.replicate_succ']

end Excerpt
end Homoicon
