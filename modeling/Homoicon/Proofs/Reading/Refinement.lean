import Homoicon.Proofs.Reading.Lookback

/-! Reading by watches comes to the same as descending with one token of lookahead. -/
namespace Homoicon

namespace Reading

def resume (reading : Reading) (tokens : List Node) : Except ParseError Node := do
  (← tokens.foldlM (next .standard) reading).finish

theorem resume_nil (reading : Reading) : reading.resume [] = reading.finish := rfl

theorem resume_cons (b : OpenBlock) (outer : List OpenBlock) (token : Node) (tokens : List Node) :
    (inside b outer).resume (token :: tokens) =
      step .standard b outer token >>= (·.resume tokens) := by
  unfold resume
  rw [List.foldlM_cons, bind_assoc]
  rfl

theorem resume_finished (tree : Node) (tokens : List Node) :
    (finished tree).resume tokens = .ok tree := by
  induction tokens with
  | nil => rfl
  | cons token tokens ih => exact ih

end Reading

/-- Whether every character that pairs begin with is a token of its own. -/
def LeadsAlone (tokens : List Node) : Prop :=
  ∀ token ∈ tokens, ∀ form : Form, StandsAlone form.lead token.fragments.before

theorem LeadsAlone.of_subset {tokens others : List Node} (h : LeadsAlone tokens)
    (hsubset : others ⊆ tokens) : LeadsAlone others :=
  fun token htoken => h token (hsubset htoken)

theorem LeadsAlone.of_suffix {tokens rest : List Node} (h : LeadsAlone tokens)
    (hsuffix : rest <:+ tokens) : LeadsAlone rest :=
  h.of_subset hsuffix.subset

theorem leadsAlone_ofChars (file : String) (position : Text.Position) (text : List Char) :
    LeadsAlone (Token.ofChars file position text) := by
  intro token htoken form
  cases form
  all_goals
    exact standsAlone_of_mem_ofChars (by decide) (by decide) (by decide) (by decide) _ htoken

theorem leadsAlone_tokenize (text file : String) :
    LeadsAlone ((tokenize text file).takeWhile (·.kind != .endOfInput)) :=
  (leadsAlone_ofChars file {} text.toList).of_subset (List.takeWhile_subset _)

namespace Form
variable {form : Form} {pending : Bool} {text : String} {next? : Option String} {mark : Mark}
  {action : Action}

/-- A token that is pending does not make a pair with one of the text `next?`. -/
def Settled (form : Form) (pending : Bool) (next? : Option String) : Prop :=
  pending = true → form.markAt? (.singleton form.lead) next? = none

theorem settled_false (next? : Option String) : form.Settled false next? := fun h => nomatch h

/-- Where no pair begins or ends, a mark is one token. -/
theorem lastMark?_eq_markAt? (hsettled : form.Settled pending (some text))
    (hpair : ∀ entry ∈ form.marks, entry.1.more = 1 → entry.1.isAt text next? = false) :
    form.lastMark? pending text = form.markAt? text next? := by
  refine List.find?_congr fun ⟨mark, action⟩ hentry => ?_
  cases mark with
  | one c => rfl
  | two c next =>
    rw [hpair _ hentry rfl]
    refine Bool.eq_false_iff.mpr fun hlast => ?_
    obtain ⟨rfl, htext⟩ := Bool.and_eq_true_iff.mp hlast
    obtain rfl := beq_iff_eq.mp htext
    have hnone := List.find?_eq_none.mp (hsettled rfl) _ hentry
    have hlead : c = form.lead := fits_of_mem_marks _ hentry
    rw [hlead] at hnone
    simp [Mark.isAt] at hnone

theorem lastMark?_lead : form.lastMark? false (.singleton form.lead) = none := by
  cases form <;> decide +kernel

/-- Where there are pairs, one is that of their first character twice. -/
theorem markAt?_lead_lead (hmem : (mark, action) ∈ form.marks) (hmore : mark.more = 1) :
    form.markAt? (.singleton form.lead) (some (.singleton form.lead)) ≠ none := by
  have hall : ∀ entry ∈ form.marks, entry.1.more = 1 →
      form.markAt? (.singleton form.lead) (some (.singleton form.lead)) ≠ none := by
    cases form <;> decide +kernel
  exact hall (mark, action) hmem hmore

/-- A token that ends a pair means nothing else. -/
theorem lastMark?_pair (hmem : (mark, action) ∈ form.marks) (hmore : mark.more = 1) :
    form.lastMark? true (.singleton mark.last) =
      form.markAt? (.singleton form.lead) (some (.singleton mark.last)) := by
  have hall : ∀ entry ∈ form.marks, entry.1.more = 1 →
      form.lastMark? true (.singleton entry.1.last) =
        form.markAt? (.singleton form.lead) (some (.singleton entry.1.last)) := by
    cases form <;> decide +kernel
  exact hall (mark, action) hmem hmore

section Resume
variable {opener : String} {location : Location} {items tokens : List Node} {token : Node}
  {outer : List OpenBlock}

/-- Watches find a mark after its last token, as a look ahead does before its first. -/
theorem resume_mark (halone : LeadsAlone (token :: tokens))
    (hsettled : form.Settled pending (some token.fragments.before))
    (hmark : form.markAt? token.fragments.before (tokens.head?.map (·.fragments.before)) =
      some (mark, action)) :
    (Reading.inside (form.opened opener location items pending) outer).resume (token :: tokens) =
      form.act opener location items ((tokens.take mark.more).reverse ++ [token]) token outer mark
        action >>= (·.resume (tokens.drop mark.more)) := by
  have hmem : (mark, action) ∈ form.marks := List.mem_of_find?_eq_some hmark
  have hat := List.find?_some (p := fun entry : Mark × Action => entry.1.isAt _ _) hmark
  have hfirst := halone token (.head _) form
  cases mark with
  | one c =>
    have htext : token.fragments.before = .singleton c := beq_iff_eq.mp hat
    have hlast : form.lastMark? pending token.fragments.before = some (.one c, action) := by
      rw [lastMark?_eq_markAt? hsettled fun entry hentry hmore => ?_, hmark]
      rw [htext]
      exact Mark.not_isAt_of_ne (fits_of_mem_marks _ hentry) hmore (fits_of_mem_marks _ hmem)
    rw [Reading.resume_cons, step_opened outer hfirst, hlast]
    rfl
  | two c next =>
    obtain ⟨htext, hnext⟩ := Bool.and_eq_true_iff.mp hat
    obtain ⟨second, hhead, hsecond⟩ := Option.map_eq_some_iff.mp (beq_iff_eq.mp hnext)
    obtain ⟨rest, rfl⟩ := List.head?_eq_some_iff.mp hhead
    have hlead : c = form.lead := fits_of_mem_marks _ hmem
    have htext : token.fragments.before = .singleton form.lead := hlead ▸ beq_iff_eq.mp htext
    have hpending : pending = false := by
      refine Bool.eq_false_iff.mpr fun hpending => ?_
      have hnone := hsettled hpending
      rw [htext] at hnone
      exact markAt?_lead_lead hmem rfl hnone
    have hlast : form.lastMark? true second.fragments.before = some (.two c next, action) := by
      have hpair := lastMark?_pair hmem rfl
      rw [List.head?_cons, Option.map_some, htext, hsecond] at hmark
      rw [hsecond, ← hmark]
      exact hpair
    have hsecond := halone second (.tail _ (.head _)) form
    rw [hpending, Reading.resume_cons, step_opened outer hfirst, htext, lastMark?_lead,
      beq_self_eq_true]
    change (Reading.inside (form.opened opener location (token :: items) true) outer).resume _ = _
    rw [Reading.resume_cons, step_opened outer hsecond, hlast]
    rfl

theorem acceptsEndOfInput_rule : form.rule.acceptsEndOfInput = form.endsWithInput := by
  cases form <;> decide +kernel

/-- The end of the input closes a block and goes on to the one around it. -/
theorem closeAll_opened (hends : form.endsWithInput = true) :
    Reading.closeAll (form.opened opener location items pending) outer =
      form.node items opener "" location >>= fun node => (Reading.giveBack node outer).finish := by
  have haccepts : (form.opened opener location items pending).rule.acceptsEndOfInput = true :=
    acceptsEndOfInput_rule.trans hends
  rw [Reading.closeAll_eq, if_pos haccepts]
  rfl

theorem closeAll_unclosed (hends : ¬form.endsWithInput = true) :
    Reading.closeAll (form.opened opener location items pending) outer =
      .error ⟨.unclosed opener, location⟩ := by
  have haccepts : ¬(form.opened opener location items pending).rule.acceptsEndOfInput = true :=
    acceptsEndOfInput_rule ▸ hends
  rw [Reading.closeAll_eq, if_neg haccepts]
  rfl

/-- A block is read by watches as by descending into it, and what is left is read on in the block
around it. -/
theorem resume_opened (halone : LeadsAlone tokens)
    (hsettled : form.Settled pending (tokens.head?.map (·.fragments.before))) :
    (Reading.inside (form.opened opener location items pending) outer).resume tokens =
      form.read opener location items tokens >>= fun found =>
        (Reading.giveBack found.node outer).resume found.rest := by
  fun_induction Form.read form opener location items tokens generalizing outer pending with
  | case1 form opener location items hends =>
    rw [Reading.resume_nil]
    refine (closeAll_opened hends).trans ?_
    rw [bind_assoc]
    rfl
  | case2 form opener location items hends => exact closeAll_unclosed hends
  | case3 form opener location items token tokens hmark ih =>
    have hfirst := halone token (.head _) form
    have hnone := List.find?_eq_none.mp hmark
    have hlast : form.lastMark? pending token.fragments.before = none := by
      rw [lastMark?_eq_markAt? hsettled fun entry hentry _ => ?_, hmark]
      exact Bool.eq_false_iff.mpr (hnone entry hentry)
    have hsettled : form.Settled (!pending && token.fragments.before == .singleton form.lead)
        (tokens.head?.map (·.fragments.before)) := by
      intro hpending
      rw [← beq_iff_eq.mp (Bool.and_eq_true_iff.mp hpending).2]
      exact hmark
    rw [Reading.resume_cons, step_opened outer hfirst, hlast, bind_assoc]
    exact ih (halone.of_suffix (List.suffix_cons ..)) hsettled
  | case4 form opener location items token tokens mark hmark ih =>
    have hrest := halone.of_suffix ((List.drop_suffix mark.more _).trans (List.suffix_cons ..))
    rw [resume_mark halone hsettled hmark, bind_assoc]
    unfold act
    rw [List.append_assoc]
    exact ih hrest (settled_false _)
  | case5 form opener location items token tokens mark hmark =>
    rw [resume_mark halone hsettled hmark, bind_assoc]
    unfold act
    rw [bind_assoc]
    rfl
  | case6 form opener location items token tokens mark inner hmark ihinner ihouter =>
    have hrest := halone.of_suffix ((List.drop_suffix mark.more _).trans (List.suffix_cons ..))
    rw [resume_mark halone hsettled hmark, bind_assoc]
    refine (ihinner hrest (settled_false _)).trans (bind_congr fun block => ?_)
    rw [bind_assoc]
    exact ihouter block (hrest.of_suffix block.suffix) (settled_false _)

end Resume

end Form

theorem parse_eq_resume (text file : String) :
    parse text file =
      (Reading.inside (Form.toplevel.opened ""
        (((tokenize text file).head?.map (·.location)).getD .unknown) [] false) []).resume
          ((tokenize text file).takeWhile (·.kind != .endOfInput)) := by
  have hrule : Grammar.standard.rule? Grammar.standard.toplevel = some Form.toplevel.rule :=
    Form.rule?_name .toplevel
  unfold parse parseWith Grammar.parse
  dsimp only
  rw [hrule]
  dsimp only
  rw [Form.new_rule]
  rfl

theorem Form.resume_toplevel {opener : String} {location : Location} {items tokens : List Node}
    (halone : LeadsAlone tokens) :
    (Reading.inside (Form.toplevel.opened opener location items false) []).resume tokens =
      (·.node) <$> Form.read .toplevel opener location items tokens := by
  refine (resume_opened halone (settled_false _)).trans ?_
  rw [map_eq_pure_bind]
  exact bind_congr fun found => Reading.resume_finished found.node found.rest

/-- Reading a text by watches gives the tree, or the error, of the reader that descends into each
block and looks at most one token ahead. -/
theorem parse_eq_descend (text file : String) : parse text file = descend text file := by
  rw [parse_eq_resume, Form.resume_toplevel (leadsAlone_tokenize text file), map_eq_pure_bind]
  rfl

end Homoicon
