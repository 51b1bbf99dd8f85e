import Homoicon.Proofs.Reading.Nesting
import Homoicon.Proofs.Reading.Occurrence
import Homoicon.Proofs.Reading.Relocation

/-! Whole lines and the text that follows them are read each by itself. -/
namespace Homoicon

namespace Text
variable {lines : Nat} {text : List Char}

def Position.down (lines : Nat) (p : Position) : Position := { p with line := p.line + lines }

theorem Position.next_down (p : Position) (c : Char) :
    (p.down lines).next c = (p.next c).down lines := by
  unfold next down
  split
  · rw [Nat.add_right_comm]
  · rfl

theorem Position.after_down (p : Position) (text : List Char) :
    (p.down lines).after text = (p.after text).down lines := by
  induction text generalizing p with
  | nil => rfl
  | cons c text ih =>
    change ((p.down lines).next c).after text = ((p.next c).after text).down lines
    rw [next_down, ih]

/-- Whole lines lead up to the beginning of the next one. -/
theorem WholeLines.after_eq (h : WholeLines text) :
    ({} : Position).after text = ({} : Position).down (text.count '\n') := by
  rw [Position.after_eq]
  unfold Position.down
  rw [Nat.zero_add]
  rcases h with rfl | ⟨line, rfl⟩
  · rfl
  · rw [List.reverse_append, List.reverse_singleton, List.singleton_append,
      List.takeWhile_cons_of_neg (by decide)]
    rfl

end Text

def Location.down (lines : Nat) (l : Location) : Location := { l with line := l.line + lines }

theorem Lexeme.relocate_token {f : Location → Location} (lexeme : Lexeme) (text : List Char)
    (location : Location) :
    (lexeme.token text location).relocate f = lexeme.token text (f location) := by
  cases lexeme <;> exact Node.relocate_new _ [] ..

/-- A text is cut alike wherever it begins. -/
theorem Token.ofChars_down (lines : Nat) (file : String) (position : Text.Position)
    (text : List Char) :
    ofChars file (position.down lines) text =
      (ofChars file position text).map (Node.relocate (.down lines)) := by
  fun_induction ofChars file position text with
  | case1 position =>
    have hend : (Node.endOfInput (.new file position.line position.column)).relocate
        (.down lines) = .endOfInput (.new file (position.line + lines) position.column) :=
      Node.relocate_new .endOfInput [] ..
    rw [ofChars, List.map_singleton, hend]
    rfl
  | case2 position c rest found text ih =>
    rw [ofChars, Text.Position.after_down, ih, List.map_cons, Lexeme.relocate_token]
    rfl

/-- At the top of a tree, what is read comes after what has been read before, and neither that nor
the place where the tree begins has an influence on it. -/
theorem Reading.children_resume {items tokens : List Node} (halone : LeadsAlone tokens)
    (start other : Location) :
    (·.children) <$> (inside (Form.toplevel.opened "" start items false) []).resume tokens =
      (fun tree => items.reverse ++ tree.children) <$>
        (inside (Form.toplevel.opened "" other [] false) []).resume tokens := by
  have hread := @Form.read_children_append .toplevel "" other [] tokens rfl rfl items start
  rw [Form.resume_toplevel halone, Form.resume_toplevel halone, Functor.map_map, Functor.map_map]
  exact hread

section Append
variable {lines file : String} {before : Node}

/-- The children of a text after whole lines come after those of the lines, and its errors are
those that it has by itself. -/
theorem children_append (hlines : Text.WholeLines lines.toList) (h : parse lines file = .ok before)
    (text : String) :
    (·.children) <$> parse (lines ++ text) file =
      relocated (.down (lines.toList.count '\n'))
        (fun after => before.children ++
          after.children.map (Node.relocate (.down (lines.toList.count '\n'))))
        (parse text file) := by
  obtain ⟨items, hchildren, hparse⟩ := parse_append hlines h
  have htokens :
      (Token.ofChars file (({} : Text.Position).after lines.toList) text.toList).dropLast =
        (tokenize text file).dropLast.map (Node.relocate (.down (lines.toList.count '\n'))) := by
    rw [hlines.after_eq, Token.ofChars_down, List.map_dropLast]
    rfl
  have halone := (leadsAlone_ofChars file (({} : Text.Position).after lines.toList)
    text.toList).of_subset (List.dropLast_subset _)
  have hportable :
      (Reading.inside (Form.toplevel.opened "" (.new file 0 0) [] false) []).Portable :=
    List.forall_mem_singleton.mpr rfl
  have hmoved := Reading.resume_relocate (f := .down (lines.toList.count '\n')) hportable
    (tokenize text file).dropLast
  rw [hparse, Reading.children_resume halone _ (.down (lines.toList.count '\n') (.new file 0 0)),
    htokens, parse_eq_resume_dropLast, hchildren]
  refine (congrArg _ hmoved).trans ((map_relocated _).trans ?_)
  simp only [Node.children_relocate]

/-- A text after whole lines that can be read by themselves is read as it is by itself: with the
same error, or with the same children after those of the lines, in either case as many lines further
down as there are newlines before. -/
theorem parse_lines_append (hlines : Text.WholeLines lines.toList)
    (h : parse lines file = .ok before) (text : String) :
    (∃ e, parse text file = .error e ∧
        parse (lines ++ text) file =
          .error (e.relocate (.down (lines.toList.count '\n')))) ∨
      ∃ after tree, parse text file = .ok after ∧ parse (lines ++ text) file = .ok tree ∧
        tree.children = before.children ++
          after.children.map (Node.relocate (.down (lines.toList.count '\n'))) := by
  have happend := children_append hlines h text
  cases hafter : parse text file with
  | error e =>
    rw [hafter] at happend
    exact .inl ⟨e, rfl, map_eq_error.mp happend⟩
  | ok after =>
    rw [hafter] at happend
    obtain ⟨tree, htree, hchildren⟩ := map_eq_ok.mp happend
    exact .inr ⟨after, tree, rfl, htree, hchildren⟩

end Append

theorem parse_lines_append_comment :
    ∃ before after tree, parse "a # (\n" "main" = .ok before ∧ parse "[b\n1]" "main" = .ok after ∧
      parse "a # (\n[b\n1]" "main" = .ok tree ∧
      tree.children = before.children ++ after.children.map (Node.relocate (.down 1)) := by
  have hok : (parse "a # (\n" "main").isOk = true ∧ (parse "[b\n1]" "main").isOk = true := by
    decide +kernel
  cases h : parse "a # (\n" "main" with
  | error e =>
    rw [h] at hok
    cases hok.1
  | ok before =>
    have hlines : Text.WholeLines "a # (\n".toList := .inr ⟨"a # (".toList, rfl⟩
    rcases parse_lines_append hlines h "[b\n1]" with
      ⟨e, herror, -⟩ | ⟨after, tree, hafter, htree, hchildren⟩
    · rw [herror] at hok
      cases hok.2
    · exact ⟨before, after, tree, rfl, hafter, htree, hchildren⟩

end Homoicon
