import Homoicon.Proofs.Reading.Composition
import Homoicon.Proofs.Token.Cutting

/-! A text can be cut into tokens line by line. -/
namespace Homoicon
open Text (Position)

namespace Text
variable {line text : List Char}

theorem not_mem_of_mem_splitOn (h : line ∈ text.splitOn '\n') : '\n' ∉ line := by
  induction text generalizing line with
  | nil =>
    rw [List.splitOn_nil, List.mem_singleton] at h
    subst h
    exact List.not_mem_nil
  | cons c text ih =>
    rw [List.splitOn_cons_eq_if_modifyHead] at h
    split at h
    · rcases List.mem_cons.mp h with rfl | h
      · exact List.not_mem_nil
      · exact ih h
    · next hc =>
      obtain ⟨first, lines, hsplit⟩ := List.exists_cons_of_ne_nil (List.splitOn_ne_nil '\n' text)
      rw [hsplit, List.modifyHead_cons] at h
      rcases List.mem_cons.mp h with rfl | h
      · have hfirst : '\n' ∉ first := ih (hsplit ▸ List.mem_cons_self)
        exact List.not_mem_cons_of_ne_of_not_mem (Ne.symm (by simpa using hc)) hfirst
      · exact ih (hsplit ▸ List.mem_cons_of_mem _ h)

theorem Position.after_of_not_mem (h : '\n' ∉ line) (p : Position) :
    p.after line = ⟨p.line, p.column + line.length⟩ := by
  rw [← past_eq_after]
  exact if_neg h

theorem Position.next_after_newline (text : List Char) :
    (({} : Position).after text).next '\n' = ({} : Position).down (1 + text.count '\n') := by
  rw [after_eq, next, if_pos rfl, down, Nat.zero_add, Nat.add_comm]

end Text

namespace Token
variable {file : String} {position : Position} {line text : List Char} {lines : List (List Char)}

theorem dropLast_ofChars :
    (ofChars file position text).dropLast ++
        [.endOfInput (.new file (position.after text).line (position.after text).column)] =
      ofChars file position text := by
  fun_induction ofChars file position text with
  | case1 position => rfl
  | case2 position c rest found text ih =>
    rw [← Position.after_append, List.take_append_drop] at ih
    rw [List.dropLast_cons_of_ne_nil (ofChars_ne_nil _ _ _), List.cons_append, ih]

theorem relocate_tokenize (index : Nat) (line : List Char) :
    (tokenize (.ofList line) file).map (Node.relocate (.down index)) =
      ofChars file (({} : Position).down index) line := by
  rw [ofChars_down, tokenize, String.toList_ofList]

/-- The tokens of lines, each of which is cut by itself. The newlines between them are tokens too.
-/
def ofLines (file : String) (index : Nat) : List (List Char) → List Node
  | [] => []
  | [line] => (tokenize (.ofList line) file).map (Node.relocate (.down index))
  | line :: lines =>
    (tokenize (.ofList line) file).dropLast.map (Node.relocate (.down index)) ++
      .space "\n" (.new file index line.length) :: ofLines file (index + 1) lines

theorem ofLines_eq (hlines : ∀ line ∈ lines, '\n' ∉ line) (hne : lines ≠ []) (index : Nat) :
    ofLines file index lines =
      ofChars file (({} : Position).down index) (['\n'].intercalate lines) := by
  fun_induction ofLines file index lines with
  | case1 => exact absurd rfl hne
  | case2 index line => rw [relocate_tokenize, List.intercalate_singleton]
  | case3 index line lines hrest ih =>
    obtain ⟨hline, hlines⟩ := List.forall_mem_cons.mp hlines
    have hend : (({} : Position).down index).after line = ⟨index, line.length⟩ := by
      rw [Position.after_of_not_mem hline, Position.down, Nat.zero_add, Nat.zero_add]
    have hnext : (({} : Position).down index |>.after line).next '\n' =
        ({} : Position).down (index + 1) := by
      rw [Position.next_newline hline, Position.down, Position.down, Nat.add_assoc]
    obtain ⟨next, later, rfl⟩ := List.exists_cons_of_ne_nil hrest
    rw [ih hlines hrest, List.map_dropLast, relocate_tokenize, List.intercalate_cons_cons,
      List.append_assoc, List.singleton_append, ofChars_newline, hnext, hend]

end Token

/-- A newline is a token of its own, which stands where the text before it ends. What comes before
and after it is cut as if the other were not there, but that what comes after it stands as many
lines further down as there are newlines before. So a text is cut as its lines are, one by one. -/
theorem tokenize_lines :
    (∀ before after file : String, ∃ tokens location,
      tokenize before file = tokens ++ [.endOfInput location] ∧
        tokenize (before ++ "\n" ++ after) file =
          tokens ++ .space "\n" location ::
            (tokenize after file).map (Node.relocate (.down (1 + before.toList.count '\n')))) ∧
    ∀ text file : String, tokenize text file = Token.ofLines file 0 (text.toList.splitOn '\n') := by
  constructor
  · intro before after file
    refine ⟨(tokenize before file).dropLast, _, Token.dropLast_ofChars.symm, ?_⟩
    have hchars : (before ++ "\n" ++ after).toList = before.toList ++ '\n' :: after.toList := by
      simp
    rw [tokenize, hchars, Token.ofChars_newline, Position.next_after_newline, Token.ofChars_down]
    rfl
  · intro text file
    have hlines : ∀ line ∈ text.toList.splitOn '\n', '\n' ∉ line := fun line =>
      Text.not_mem_of_mem_splitOn
    rw [Token.ofLines_eq hlines (List.splitOn_ne_nil _ _), List.intercalate_splitOn]
    rfl

end Homoicon
