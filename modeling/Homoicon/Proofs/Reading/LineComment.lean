import Homoicon.Proofs.Reading.Nesting
import Homoicon.Proofs.Reading.Reflexive

/-! What a line comment says has no influence on what is read before and after it. -/
namespace Homoicon
open Node (sameStructures unparseAll)

/-- Whether a text can follow the opener of a line comment: it ends before the line does, and does
not begin with a blank, which would be one token with the blank of the opener. -/
def IsCommentBody (text : List Char) : Prop :=
  '\n' ∉ text ∧ text.head?.any isInlineBlank = false

instance (text : List Char) : Decidable (IsCommentBody text) := inferInstanceAs (Decidable (_ ∧ _))

namespace Token

/-- The sign and the blank that open a line comment are two tokens. -/
theorem ofChars_lineComment (file : String) (position : Text.Position) {body : List Char}
    (hbody : body.head?.any isInlineBlank = false) :
    ofChars file position ('#' :: ' ' :: body) =
      .operator "#" (.new file position.line position.column) ::
        .space " " (.new file position.line (position.column + 1)) ::
          ofChars file (position.after ['#', ' ']) body := by
  have hsign : Lexeme.scan '#' (' ' :: body) = (.operator, 1) :=
    Lexeme.scan_eq_scanChar (by decide) (by decide) (by decide)
  have hleading : Numeral.leading isInlineBlank body = 0 := by
    cases body with
    | nil => rfl
    | cons c rest => exact Numeral.leading_of_neg hbody
  have hblank : Lexeme.scan ' ' body = (.blank, Numeral.leading isInlineBlank body + 1) :=
    Lexeme.scan_eq_scanChar (by decide) (by decide) (by decide)
  rw [hleading] at hblank
  rw [ofChars, hsign]
  change _ :: ofChars file (position.after ['#']) (' ' :: body) = _
  rw [ofChars, hblank]
  rfl

theorem mem_of_mem_before {nodes : List Node} {c : Char} (hnodes : ∀ node ∈ nodes, node.IsToken)
    {node : Node} (hnode : node ∈ nodes) (hc : c ∈ node.fragments.before.toList) :
    c ∈ (unparseAll nodes).toList := by
  induction nodes with
  | nil => cases hnode
  | cons first rest ih =>
    obtain ⟨hfirst, hrest⟩ := List.forall_mem_cons.mp hnodes
    rw [Node.unparseAll_cons, String.toList_append, List.mem_append, hfirst.unparse_eq]
    rcases List.mem_cons.mp hnode with rfl | hnode
    · exact .inl hc
    · exact .inr (ih hrest hnode)

theorem ofChars_withLineComment (file : String) (position : Text.Position) {body : String}
    (hbody : IsCommentBody body.toList) (rest : String) :
    ∃ blank newline tokens,
      (ofChars file position ("# " ++ body ++ "\n" ++ rest).toList).dropLast =
        .operator "#" (.new file position.line position.column) :: blank ::
          (tokens ++ newline :: (ofChars file ⟨position.line + 1, 0⟩ rest.toList).dropLast) ∧
      blank.fragments.before = " " ∧ newline.fragments.before = "\n" ∧
      (∀ token ∈ tokens, token.fragments.before ≠ "\n") ∧ unparseAll tokens = body := by
  obtain ⟨hline, hfirst⟩ := hbody
  have hchars : ("# " ++ body ++ "\n" ++ rest).toList =
      '#' :: ' ' :: body.toList ++ '\n' :: rest.toList := by
    simp [String.toList_append]
  obtain ⟨tokens, location, htokens, hall, htext⟩ :=
    ofChars_eq_append file (position.after ['#', ' ']) body.toList
  have hnewline : '\n' ∉ '#' :: ' ' :: body.toList := by simpa using hline
  have hopened : (ofChars file position ('#' :: ' ' :: body.toList)).dropLast =
      .operator "#" (.new file position.line position.column) ::
        .space " " (.new file position.line (position.column + 1)) :: tokens := by
    rw [ofChars_lineComment file position hfirst, htokens, ← List.cons_append, ← List.cons_append,
      List.dropLast_concat]
  have hnone : ∀ token ∈ tokens, token.fragments.before ≠ "\n" := by
    intro token htoken hbefore
    refine hline (htext ▸ mem_of_mem_before hall htoken ?_)
    rw [hbefore]
    exact .head _
  rw [hchars, ofChars_newline, hopened, Text.Position.next_newline hnewline,
    List.dropLast_append_cons, List.dropLast_cons_of_ne_nil (ofChars_ne_nil _ _ _)]
  exact ⟨_, _, tokens, rfl, rfl, rfl, hnone, String.toList_inj.mp htext⟩

end Token

namespace Form
variable {form : Form} {opener : String} {location : Location} {items tokens later : List Node}

/-- A line comment ends at the first newline, whatever it says before that. -/
theorem read_lineComment {newline : Node} (hnewline : newline.fragments.before = "\n")
    (htokens : ∀ token ∈ tokens, token.fragments.before ≠ "\n") :
    Form.read .lineComment opener location items (tokens ++ newline :: later) =
      .ok ⟨.space (opener ++ unparseAll (items.reverse ++ tokens) ++ "\n") location, later,
        (List.suffix_cons ..).trans (List.suffix_append ..)⟩ := by
  induction tokens generalizing items with
  | nil =>
    have hmark : Form.lineComment.markAt? newline.fragments.before
        (later.head?.map (·.fragments.before)) = some (.one '\n', .close) := by
      rw [hnewline]
      rfl
    simp only [List.nil_append]
    rw [read]
    simp only [hmark]
    rw [List.append_nil]
    rfl
  | cons token tokens ih =>
    obtain ⟨htoken, htokens⟩ := List.forall_mem_cons.mp htokens
    have hmark : Form.lineComment.markAt? token.fragments.before
        ((tokens ++ newline :: later).head?.map (·.fragments.before)) = none := by
      refine List.find?_eq_none.mpr fun entry hentry => ?_
      rw [List.mem_singleton.mp hentry]
      exact fun h => htoken (beq_iff_eq.mp h)
    simp only [List.cons_append]
    rw [read]
    simp only [hmark, ih htokens, List.reverse_cons, List.append_assoc]
    rfl

/-- A line comment in a text is one item, which holds all that it says. -/
theorem read_withLineComment {sign blank newline : Node} (hsign : sign.fragments.before = "#")
    (hblank : blank.fragments.before = " ") (hnewline : newline.fragments.before = "\n")
    (htokens : ∀ token ∈ tokens, token.fragments.before ≠ "\n") :
    (·.node) <$> Form.read .toplevel opener location items
        (sign :: blank :: (tokens ++ newline :: later)) =
      (·.node) <$> Form.read .toplevel opener location
        (.space ("# " ++ unparseAll tokens ++ "\n") sign.location :: items) later := by
  have hmark : Form.toplevel.markAt? sign.fragments.before
      ((blank :: (tokens ++ newline :: later)).head?.map (·.fragments.before)) =
        some (.two '#' ' ', .enter .lineComment) := by
    rw [List.head?_cons, Option.map_some, hsign, hblank]
    decide +kernel
  have hfound : Form.read .lineComment (Mark.two '#' ' ').text sign.location []
      ((blank :: (tokens ++ newline :: later)).drop (Mark.two '#' ' ').more) =
        .ok ⟨.space ("# " ++ unparseAll tokens ++ "\n") sign.location, later, _⟩ :=
    read_lineComment hnewline htokens
  rw [read]
  simp only [hmark]
  rw [hfound, ok_bind, map_bind_ok]
  rfl

end Form

def withLineComment (lines body rest : String) : String :=
  lines ++ ("# " ++ body ++ "\n" ++ rest)

section WithLineComment
variable {lines file : String} {tree : Node}

/-- The body of a line comment is in the comment, and nothing else depends on it. -/
theorem children_withLineComment (hlines : Text.WholeLines lines.toList)
    (h : parse lines file = .ok tree) (rest : String) :
    ∃ (found : Except ParseError (List Node)) (location : Location),
      ∀ body : String, IsCommentBody body.toList →
        (·.children) <$> parse (withLineComment lines body rest) file =
          (fun after => tree.children ++ .space ("# " ++ body ++ "\n") location :: after) <$>
            found := by
  obtain ⟨items, hchildren, hparse⟩ := parse_append hlines h
  let position := ({} : Text.Position).after lines.toList
  refine ⟨(·.node.children) <$> Form.read .toplevel "" (.new file 0 0) []
    (Token.ofChars file ⟨position.line + 1, 0⟩ rest.toList).dropLast,
    .new file position.line position.column, fun body hbody => ?_⟩
  obtain ⟨blank, newline, tokens, hcut, hblank, hnewline, htokens, rfl⟩ :=
    Token.ofChars_withLineComment file position hbody rest
  have hread := @Form.read_children_append .toplevel "" (.new file 0 0) []
    (Token.ofChars file ⟨position.line + 1, 0⟩ rest.toList).dropLast rfl rfl
    (.space ("# " ++ unparseAll tokens ++ "\n") (.new file position.line position.column) :: items)
    (.new file 0 0)
  unfold withLineComment
  rw [hparse, Form.resume_toplevel ((leadsAlone_ofChars file position _).of_subset
    (List.dropLast_subset _)), hcut, Form.read_withLineComment rfl hblank hnewline htokens,
    Functor.map_map, Functor.map_map, hchildren]
  refine hread.trans (congrArg (· <$> _) (funext fun found => ?_))
  rw [List.reverse_cons, List.append_assoc]
  rfl

/-- What a line comment says has no influence on what is read: with one body as with another, there
is the same error, or there are the same nodes before and after the comment. None of these differs
from itself in structure. -/
theorem parse_withLineComment {body other rest : String} (hlines : Text.WholeLines lines.toList)
    (h : parse lines file = .ok tree) (hbody : IsCommentBody body.toList)
    (hother : IsCommentBody other.toList) :
    (∃ e, parse (withLineComment lines body rest) file = .error e ∧
        parse (withLineComment lines other rest) file = .error e) ∨
      ∃ first second after location,
        parse (withLineComment lines body rest) file = .ok first ∧
        parse (withLineComment lines other rest) file = .ok second ∧
        first.children = tree.children ++ .space ("# " ++ body ++ "\n") location :: after ∧
        second.children = tree.children ++ .space ("# " ++ other ++ "\n") location :: after ∧
        sameStructures tree.children tree.children = true ∧ sameStructures after after = true := by
  obtain ⟨found, location, hfound⟩ := children_withLineComment hlines h rest
  have hfirst := hfound body hbody
  have hsecond := hfound other hother
  cases found with
  | error e => exact .inl ⟨e, map_eq_error.mp hfirst, map_eq_error.mp hsecond⟩
  | ok after =>
    obtain ⟨first, hfirst, hbefore⟩ := map_eq_ok.mp hfirst
    obtain ⟨second, hsecond, hafter⟩ := map_eq_ok.mp hsecond
    have hsame := (Node.sameStructure_iff.mp (sameStructure_self_of_parse hfirst)).2.2
    rw [hbefore, Node.sameStructures_self_append, Node.sameStructures_self_cons] at hsame
    exact .inr ⟨first, second, after, location, hfirst, hsecond, hbefore, hafter, hsame.1,
      hsame.2.2⟩

end WithLineComment

theorem parse_withLineComment_bracket :
    ∃ tree first second after location, parse "a\n" "main" = .ok tree ∧
      parse "a\n# b (\nc" "main" = .ok first ∧ parse "a\n# d\nc" "main" = .ok second ∧
      first.children = tree.children ++ .space "# b (\n" location :: after ∧
      second.children = tree.children ++ .space "# d\n" location :: after := by
  have hok : (parse "a\n" "main").isOk = true ∧ (parse "a\n# b (\nc" "main").isOk = true := by
    decide +kernel
  cases h : parse "a\n" "main" with
  | error e =>
    rw [h] at hok
    cases hok.1
  | ok tree =>
    have hlines : Text.WholeLines "a\n".toList := .inr ⟨['a'], rfl⟩
    have hbodies : IsCommentBody "b (".toList ∧ IsCommentBody "d".toList := by decide +kernel
    rcases @parse_withLineComment "a\n" "main" tree "b (" "d" "c" hlines h hbodies.1 hbodies.2 with
      ⟨e, herror, -⟩ | ⟨first, second, after, location, hfirst, hsecond, hbefore, hafter, -⟩
    · change parse "a\n# b (\nc" "main" = _ at herror
      rw [herror] at hok
      cases hok.2
    · exact ⟨tree, first, second, after, location, rfl, hfirst, hsecond, hbefore, hafter⟩

end Homoicon
