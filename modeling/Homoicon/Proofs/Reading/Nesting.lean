import Homoicon.Proofs.Reading.Lines
import Homoicon.Proofs.Reading.Refinement

/-! Which blocks stand in which, and what is open where a text has come to the end of a line. -/
namespace Homoicon

/-- Whether an action may be taken in a block. Nothing but the end of the input closes the outermost
one, which stands in no other, and a line comment has no blocks in it. -/
def Action.Suits (form : Form) : Action → Prop
  | keep => True
  | close => form ≠ .toplevel
  | enter inner => form ≠ .lineComment ∧ inner ≠ .toplevel

instance (form : Form) : (action : Action) → Decidable (action.Suits form)
  | .keep => inferInstanceAs (Decidable True)
  | .close => inferInstanceAs (Decidable (form ≠ .toplevel))
  | .enter inner => inferInstanceAs (Decidable (form ≠ .lineComment ∧ inner ≠ .toplevel))

namespace Form
variable {form : Form} {pending : Bool}

theorem suits_of_mem_marks : ∀ entry ∈ form.marks, entry.2.Suits form := by
  cases form <;> decide

/-- A newline means nothing, except that it closes a line comment. -/
theorem lastMark?_newline (form : Form) (pending : Bool) :
    form.lastMark? pending "\n" =
      if form = .lineComment then some (.one '\n', .close) else none := by
  cases form <;> cases pending <;> decide +kernel

/-- The blocks around one that `opener` began at `location`, the innermost first. None of them has
a pair pending, and the outermost one began at `start`. -/
inductive Nested (start : Location) : Form → String → Location → List OpenBlock → Prop
  | outermost : Nested start .toplevel "" start []
  | inner {form parent : Form} {opener before : String} {location outerLocation : Location}
      {outer : List OpenBlock} (hform : form ≠ .toplevel) (hparent : parent ≠ .lineComment)
      (houter : Nested start parent before outerLocation outer) (items : List Node) :
      Nested start form opener location
        (parent.opened before outerLocation items false :: outer)

end Form

namespace Reading
open Form (Nested)

variable {start : Location} {reading later : Reading} {token : Node} {tokens : List Node}

/-- A reading of a text under the standard grammar that has not come to its end. -/
inductive Standing (start : Location) : Reading → Prop
  | inside {form : Form} {opener : String} {location : Location} {outer : List OpenBlock}
      (h : Nested start form opener location outer) (items : List Node) (pending : Bool) :
      Standing start (.inside (form.opened opener location items pending) outer)

/-- The same where a line has ended: no line comment is open and no pair is pending. -/
inductive AtLine (start : Location) : Reading → Prop
  | inside {form : Form} {opener : String} {location : Location} {outer : List OpenBlock}
      (h : Nested start form opener location outer) (hform : form ≠ .lineComment)
      (items : List Node) : AtLine start (.inside (form.opened opener location items false) outer)

theorem AtLine.standing (h : reading.AtLine start) : reading.Standing start := by
  cases h with
  | inside h hform items => exact .inside h items false

theorem atLine_giveBack {form : Form} {opener : String} {location : Location}
    {outer : List OpenBlock} (h : Nested start form opener location outer)
    (hform : form ≠ .toplevel) (node : Node) : (giveBack node outer).AtLine start := by
  cases h with
  | outermost => exact absurd rfl hform
  | inner hform hparent houter items => exact .inside houter hparent (node :: items)

/-- One more token leaves the blocks nested. -/
theorem Standing.next (h : reading.Standing start)
    (halone : ∀ form : Form, StandsAlone form.lead token.fragments.before)
    (hnext : Reading.next .standard reading token = .ok later) : later.Standing start := by
  cases h with
  | @inside form opener location outer h items pending =>
    change step .standard _ outer token = _ at hnext
    rw [Form.step_opened outer (halone form)] at hnext
    split at hnext
    · cases hnext
      exact .inside h _ _
    · next mark action hlast =>
      have hsuits := Form.suits_of_mem_marks _ (List.mem_of_find?_eq_some hlast)
      cases action with
      | keep =>
        cases hnext
        exact .inside h _ _
      | close =>
        obtain ⟨node, -, hnext⟩ := bind_eq_ok.mp hnext
        cases hnext
        exact (atLine_giveBack h hsuits node).standing
      | enter inner =>
        cases hnext
        exact .inside (.inner hsuits.2 hsuits.1 h _) _ _

/-- A newline ends a line comment and whatever was pending. -/
theorem Standing.newline (h : reading.Standing start) (htoken : token.fragments.before = "\n")
    (halone : ∀ form : Form, StandsAlone form.lead token.fragments.before)
    (hnext : Reading.next .standard reading token = .ok later) : later.AtLine start := by
  cases h with
  | @inside form opener location outer h items pending =>
    change step .standard _ outer token = _ at hnext
    rw [Form.step_opened outer (halone form), htoken, Form.lastMark?_newline] at hnext
    by_cases hform : form = .lineComment
    · rw [if_pos hform] at hnext
      obtain ⟨node, -, hnext⟩ := bind_eq_ok.mp hnext
      cases hnext
      exact atLine_giveBack h (by rw [hform]; decide) node
    -- the newline is the last token of no mark, nor the first one of a pair
    · have hlead : (!pending && "\n" == String.singleton form.lead) = false := by
        cases form <;> cases pending <;> decide +kernel
      rw [if_neg hform, hlead] at hnext
      cases hnext
      exact .inside h hform _

theorem Standing.foldlM (h : reading.Standing start) (halone : LeadsAlone tokens)
    (hlater : tokens.foldlM (Reading.next .standard) reading = .ok later) :
    later.Standing start := by
  induction tokens generalizing reading with
  | nil =>
    cases hlater
    exact h
  | cons token tokens ih =>
    rw [List.foldlM_cons] at hlater
    obtain ⟨middle, hmiddle, hlater⟩ := bind_eq_ok.mp hlater
    exact ih (h.next (halone token (.head _)) hmiddle) (halone.of_suffix (List.suffix_cons ..))
      hlater

/-- A reading that may end where a line does is that of a finished tree's children. -/
theorem AtLine.finish (h : reading.AtLine start) {tree : Node}
    (hfinish : reading.finish = .ok tree) :
    ∃ items, reading = .inside (Form.toplevel.opened "" start items false) [] ∧
      tree.children = items.reverse := by
  cases h with
  | @inside form opener location outer h hform items =>
    change closeAll _ outer = _ at hfinish
    by_cases hends : form.endsWithInput = true
    · obtain rfl : form = .toplevel := by
        cases form <;> first | rfl | contradiction
      cases h with
      | outermost =>
        rw [Form.closeAll_opened hends] at hfinish
        cases hfinish
        exact ⟨items, rfl, rfl⟩
      | inner hform => exact absurd rfl hform
    · rw [Form.closeAll_unclosed hends] at hfinish
      cases hfinish

theorem resume_append (reading : Reading) (tokens others : List Node) :
    reading.resume (tokens ++ others) =
      tokens.foldlM (Reading.next .standard) reading >>= (·.resume others) := by
  unfold resume
  rw [List.foldlM_append, bind_assoc]

end Reading

theorem parse_eq_resume_dropLast (text file : String) :
    parse text file =
      (Reading.inside (Form.toplevel.opened "" (.new file 0 0) [] false) []).resume
        (tokenize text file).dropLast := by
  have hhead := Token.head?_ofChars file {} text.toList
  have htokens := Token.takeWhile_ofChars file {} text.toList
  rw [parse_eq_resume]
  unfold tokenize
  rw [hhead, htokens]
  rfl

/-- At the end of a line, no line comment is open. -/
theorem atLine_of_foldlM {lines file : String} {reading : Reading}
    (hlines : Text.WholeLines lines.toList)
    (h : (tokenize lines file).dropLast.foldlM (Reading.next .standard)
      (.inside (Form.toplevel.opened "" (.new file 0 0) [] false) []) = .ok reading) :
    reading.AtLine (.new file 0 0) := by
  have hstart : (Reading.inside (Form.toplevel.opened "" (.new file 0 0) [] false) []).AtLine
      (.new file 0 0) := .inside .outermost (by decide) []
  have halone := (leadsAlone_ofChars file {} lines.toList).of_subset (List.dropLast_subset _)
  unfold tokenize at h
  rcases hlines with hempty | ⟨line, hline⟩
  · rw [hempty, Token.ofChars] at h
    cases h
    exact hstart
  · rw [hline, Token.ofChars_newline, Token.ofChars, List.dropLast_append_cons] at h halone
    rw [List.foldlM_append] at h
    obtain ⟨middle, hmiddle, h⟩ := bind_eq_ok.mp h
    rw [List.dropLast_cons_cons, List.dropLast_singleton, List.foldlM_cons] at h
    obtain ⟨last, hlast, h⟩ := bind_eq_ok.mp h
    cases h
    have hstanding := hstart.standing.foldlM (halone.of_subset (List.subset_append_left ..)) hmiddle
    exact hstanding.newline rfl (halone _ (List.mem_append_right _ (.head _))) hlast

/-- A text that follows whole lines is read at the top of the tree, after what the lines are read
as. -/
theorem parse_append {lines file : String} {tree : Node} (hlines : Text.WholeLines lines.toList)
    (h : parse lines file = .ok tree) :
    ∃ items, tree.children = items.reverse ∧ ∀ text,
      parse (lines ++ text) file =
        (Reading.inside (Form.toplevel.opened "" (.new file 0 0) items false) []).resume
          (Token.ofChars file (({} : Text.Position).after lines.toList) text.toList).dropLast := by
  rw [parse_eq_resume_dropLast] at h
  obtain ⟨reading, hreading, hfinish⟩ := bind_eq_ok.mp h
  have hline := atLine_of_foldlM hlines hreading
  obtain ⟨items, rfl, hchildren⟩ := hline.finish hfinish
  refine ⟨items, hchildren, fun text => ?_⟩
  have hcut : (tokenize (lines ++ text) file).dropLast = (tokenize lines file).dropLast ++
      (Token.ofChars file (({} : Text.Position).after lines.toList) text.toList).dropLast := by
    unfold tokenize
    rw [String.toList_append, Token.ofChars_append hlines,
      List.dropLast_append_of_ne_nil (Token.ofChars_ne_nil _ _ _)]
  rw [parse_eq_resume_dropLast, hcut, Reading.resume_append, hreading]
  rfl

section Children
variable {form : Form} {opener : String} {location : Location} {items tokens : List Node}

/-- What has been read before in a block of code that ends with the input, and where the block
begins, has no influence on what is read after it. -/
theorem Form.read_children_append (hform : form.assembly = .block)
    (hinput : form.endsWithInput = true) (before : List Node) (start : Location) :
    (·.node.children) <$> form.read opener start (items ++ before) tokens =
      (fun found => before.reverse ++ found.node.children) <$>
        form.read opener location items tokens := by
  fun_induction Form.read form opener location items tokens with
  | case1 form opener location items hends =>
    rw [read, if_pos hends]
    unfold node
    rw [hform]
    exact congrArg Except.ok List.reverse_append
  | case2 form opener location items hends => exact absurd hinput hends
  | case3 form opener location items token tokens hmark ih =>
    rw [read]
    simp only [hmark]
    rw [map_bind_ok, map_bind_ok]
    exact ih hform hinput
  | case4 form opener location items token tokens mark hmark ih =>
    have ih := ih hform hinput
    rw [List.append_assoc, List.cons_append] at ih
    rw [read]
    simp only [hmark]
    rw [map_bind_ok, map_bind_ok]
    exact ih
  | case5 form opener location items token tokens mark hmark =>
    rw [read]
    simp only [hmark]
    unfold node
    rw [hform]
    exact congrArg Except.ok List.reverse_append
  | case6 form opener location items token tokens mark inner hmark ihinner ihouter =>
    rw [read]
    simp only [hmark]
    -- the inner block begins without items, so it is the same in both readings
    cases inner.read mark.text token.location [] (tokens.drop mark.more) with
    | error e => rfl
    | ok block =>
      rw [ok_bind, ok_bind, map_bind_ok, map_bind_ok]
      exact ihouter block hform hinput

end Children

end Homoicon
