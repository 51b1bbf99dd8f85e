import Homoicon.Proofs.Reading.Lookback
import Homoicon.Proofs.Reading.Spared
import Homoicon.Proofs.Token.Cutting

/-! Where a block ends whose rule has one end marker and nothing else to look for. -/
namespace Homoicon

namespace Token
variable {marker : String} {begun before run after tokens others : List Node} {token : Node}

theorem source_nil : source [] = "" := String.join_nil

theorem source_concat (tokens : List Node) (token : Node) :
    source (tokens ++ [token]) = source tokens ++ token.fragments.before := by
  simp [source]

theorem source_initial (h : tokens <+: others) :
    (source tokens).toList <+: (source others).toList := by
  obtain ⟨more, rfl⟩ := h
  rw [source_append, String.toList_append]
  exact List.prefix_append _ _

/-- Tokens spell a beginning of a marker, but not all of it. -/
structure Begins (marker : String) (tokens : List Node) : Prop where
  initial : (source tokens).toList <+: marker.toList
  short : source tokens ≠ marker

/-- An attempt to spell a marker fails: a token does not go on with what the tokens before it have
begun. -/
structure Fails (marker : String) (begun : List Node) (token : Node) : Prop where
  begins : Begins marker begun
  breaks : ¬(source (begun ++ [token])).toList <+: marker.toList

/-- Tokens that are attempts to spell a marker, one after the other, each up to the token that it
fails at. -/
inductive Missed (marker : String) : List Node → Prop
  | nil : Missed marker []
  | cons {begun rest : List Node} {token : Node} : Fails marker begun token → Missed marker rest →
    Missed marker (begun ++ token :: rest)

/-- A run of tokens spells a marker, and all before it are attempts at the marker that fail. -/
structure Found (marker : String) (tokens before run after : List Node) : Prop where
  cut : tokens = before ++ run ++ after
  missed : Missed marker before
  spells : source run = marker

theorem begins_nil (h : marker ≠ "") : Begins marker [] where
  initial := by
    rw [source_nil]
    exact List.nil_prefix
  short := by
    rw [source_nil]
    exact h.symm

theorem Begins.of_initial (h : Begins marker others) (hinitial : tokens <+: others) :
    Begins marker tokens := by
  have hless : (source tokens).toList <+: (source others).toList := source_initial hinitial
  refine ⟨hless.trans h.initial, fun hspells => h.short ?_⟩
  rw [hspells] at hless
  exact String.toList_inj.mp (h.initial.eq_of_length_le hless.length_le)

/-- A run that spells a marker is no beginning of an attempt that fails, its last token included. -/
theorem Fails.not_initial (h : Fails marker begun token) (hspells : source run = marker) :
    ¬run <+: begun ++ [token] := by
  intro hinitial
  rcases List.prefix_concat_iff.mp hinitial with rfl | hinitial
  · exact h.breaks (hspells ▸ List.prefix_refl _)
  · exact (h.begins.of_initial hinitial).short hspells

theorem Fails.not_initial_of (h : Fails marker begun token)
    (htokens : (source tokens).toList <+: marker.toList) : ¬begun ++ [token] <+: tokens :=
  fun hinitial => h.breaks ((source_initial hinitial).trans htokens)

/-- A marker is not spelled where an attempt fails. -/
theorem Fails.append_ne (h : Fails marker begun token) (hspells : source run = marker)
    (rest after : List Node) : begun ++ token :: rest ≠ run ++ after := by
  intro heq
  have hbegun : begun ++ [token] <+: begun ++ token :: rest := ⟨rest, by simp⟩
  have hrun : run <+: begun ++ token :: rest := ⟨after, heq.symm⟩
  have hwhole : (source run).toList <+: marker.toList := hspells ▸ List.prefix_refl _
  rcases List.prefix_or_prefix_of_prefix hbegun hrun with hinitial | hinitial
  · exact h.not_initial_of hwhole hinitial
  · exact h.not_initial hspells hinitial

theorem Fails.unique {begun' rest rest' : List Node} {token' : Node} (h : Fails marker begun token)
    (h' : Fails marker begun' token') (heq : begun ++ token :: rest = begun' ++ token' :: rest') :
    begun = begun' ∧ token = token' ∧ rest = rest' := by
  rcases List.append_eq_append_iff.mp heq with ⟨more, rfl, hrest⟩ | ⟨more, rfl, hrest⟩
  · cases more with
    | nil => simpa using hrest
    | cons first more =>
      obtain ⟨rfl, -⟩ := List.cons.inj hrest
      have hinitial : begun ++ [token] <+: begun ++ token :: more := ⟨more, by simp⟩
      exact absurd hinitial (h.not_initial_of h'.begins.initial)
  · cases more with
    | nil => simpa [eq_comm] using hrest
    | cons first more =>
      obtain ⟨rfl, -⟩ := List.cons.inj hrest
      have hinitial : begun' ++ [token'] <+: begun' ++ token' :: more := ⟨more, by simp⟩
      exact absurd hinitial (h'.not_initial_of h.begins.initial)

theorem Missed.append (h : Missed marker before) (h' : Missed marker after) :
    Missed marker (before ++ after) := by
  induction h with
  | nil => exact h'
  | cons hfails _ ih =>
    rw [List.append_assoc, List.cons_append]
    exact .cons hfails ih

theorem eq_of_source_eq (hfull : ∀ token ∈ others, token.fragments.before ≠ "")
    (hinitial : tokens <+: others) (h : source tokens = source others) : tokens = others := by
  obtain ⟨more, rfl⟩ := hinitial
  cases more with
  | nil => simp
  | cons token more =>
    have htoken : token.fragments.before ≠ "" := hfull token (by simp)
    rw [source_append, source_cons] at h
    have hlength := congrArg String.length h
    have hpos : token.fragments.before.length ≠ 0 := by simpa using htoken
    simp only [String.length_append] at hlength
    omega

/-- Of the tokens that a list begins with, only one run spells a marker. -/
theorem eq_of_spells {run' after' : List Node}
    (hfull : ∀ token ∈ run ++ after, token.fragments.before ≠ "")
    (heq : run ++ after = run' ++ after') (hspells : source run = marker)
    (hspells' : source run' = marker) : run = run' ∧ after = after' := by
  have hrun : run <+: run ++ after := List.prefix_append _ _
  have hrun' : run' <+: run ++ after := ⟨after', heq.symm⟩
  have hsame : run = run' := by
    rcases List.prefix_or_prefix_of_prefix hrun hrun' with hinitial | hinitial
    · exact eq_of_source_eq (fun token ht => hfull token (hrun'.subset ht)) hinitial
        (hspells.trans hspells'.symm)
    · exact (eq_of_source_eq (fun token ht => hfull token (hrun.subset ht)) hinitial
        (hspells'.trans hspells.symm)).symm
  subst hsame
  exact ⟨rfl, List.append_cancel_left heq⟩

/-- A marker is found at one place only. -/
theorem Found.unique {before' run' after' : List Node}
    (hfull : ∀ token ∈ tokens, token.fragments.before ≠ "")
    (h : Found marker tokens before run after) (h' : Found marker tokens before' run' after') :
    before = before' ∧ run = run' ∧ after = after' := by
  obtain ⟨rfl, hmissed, hspells⟩ := h
  obtain ⟨heq, hmissed', hspells'⟩ := h'
  simp only [List.append_assoc] at heq hfull
  induction hmissed generalizing before' with
  | nil =>
    cases hmissed' with
    | nil => exact ⟨rfl, eq_of_spells hfull heq hspells hspells'⟩
    | cons hfails' _ =>
      rw [List.append_assoc] at heq
      exact absurd heq.symm (hfails'.append_ne hspells _ _)
  | @cons begun rest token hfails _ ih =>
    cases hmissed' with
    | nil =>
      rw [List.append_assoc] at heq
      exact absurd heq (hfails.append_ne hspells' _ _)
    | @cons begun' rest' token' hfails' hrest' =>
      simp only [List.append_assoc, List.cons_append] at heq hfull
      obtain ⟨rfl, rfl, hrests⟩ := hfails.unique hfails' heq
      obtain ⟨rfl, hruns⟩ := ih hrest' hrests fun t ht =>
        hfull t (List.mem_append_right _ (.tail _ ht))
      exact ⟨rfl, hruns⟩

/-- Some run of the tokens is found, or all of them are attempts at the marker, of which only the
last one may still come to it. -/
theorem found_or_missed (hmarker : marker ≠ "") (tokens : List Node) :
    (∃ before run after, Found marker tokens before run after) ∨
      ∃ before begun, tokens = before ++ begun ∧ Missed marker before ∧ Begins marker begun := by
  induction tokens using List.reverseRecOn with
  | nil => exact .inr ⟨[], [], rfl, .nil, begins_nil hmarker⟩
  | append_singleton tokens token ih =>
    rcases ih with
      ⟨before, run, after, rfl, hmissed, hspells⟩ | ⟨before, begun, rfl, hmissed, hbegins⟩
    · exact .inl ⟨before, run, after ++ [token], by simp, hmissed, hspells⟩
    · rw [List.append_assoc]
      by_cases hinitial : (source (begun ++ [token])).toList <+: marker.toList
      · by_cases hspells : source (begun ++ [token]) = marker
        · exact .inl ⟨before, begun ++ [token], [], by simp, hmissed, hspells⟩
        · exact .inr ⟨before, begun ++ [token], rfl, hmissed, hinitial, hspells⟩
      · have hfails : Missed marker (begun ++ [token]) := .cons ⟨hbegins, hinitial⟩ .nil
        exact .inr ⟨before ++ (begun ++ [token]), [], by simp, hmissed.append hfails,
          begins_nil hmarker⟩

end Token

namespace Watch
variable {marker : String} {begun : List Node} {token : Node}

/-- The watch of a marker that tokens have begun. -/
def midway (marker : String) (begun : List Node) : Watch Unit where
  marker
  meaning := ()
  tokens := begun.length
  chars := (Token.source begun).length

/-- What tokens that have begun a marker leave of it. -/
theorem drop_midway (h : Token.Begins marker begun) :
    (Token.source begun).toList ++
      (midway marker begun).marker.toList.drop (midway marker begun).chars = marker.toList := by
  obtain ⟨rest, hrest⟩ := h.initial
  change _ ++ marker.toList.drop (Token.source begun).length = _
  rw [← hrest, ← String.length_toList, List.drop_left]

theorem continues_midway (h : Token.Begins marker begun) (htoken : token.fragments.before ≠ "") :
    (midway marker begun).continues token.fragments.before = true ↔
      (Token.source (begun ++ [token])).toList <+: marker.toList := by
  rw [continues_iff, and_iff_right htoken, Token.source_concat, String.toList_append,
    ← drop_midway h, List.prefix_append_right_inj]

theorem completes_midway (h : Token.Begins marker begun) (htoken : token.fragments.before ≠ "") :
    (midway marker begun).completes token.fragments.before = true ↔
      Token.source (begun ++ [token]) = marker := by
  rw [completes_iff, and_iff_right htoken, Token.source_concat, ← String.toList_inj,
    String.toList_append, ← drop_midway h, List.append_cancel_left_eq]

theorem advance_midway (h : Token.Begins marker begun) (htoken : token.fragments.before ≠ "")
    (hmore : Token.Begins marker (begun ++ [token])) :
    (midway marker begun).advance token.fragments.before = midway marker (begun ++ [token]) := by
  have hcontinues := (continues_midway h htoken).mpr hmore.initial
  have hcompletes : (midway marker begun).completes token.fragments.before = false :=
    Bool.eq_false_iff.mpr fun hlast => hmore.short ((completes_midway h htoken).mp hlast)
  unfold advance
  rw [hcontinues, hcompletes, Bool.not_false, Bool.and_true, if_pos rfl]
  simp [midway, Token.source_concat]

theorem advance_midway_of_fails (h : Token.Fails marker begun token)
    (htoken : token.fragments.before ≠ "") :
    (midway marker begun).advance token.fragments.before = midway marker [] := by
  have hcontinues : (midway marker begun).continues token.fragments.before = false :=
    Bool.eq_false_iff.mpr fun hgo => h.breaks ((continues_midway h.begins htoken).mp hgo)
  unfold advance
  rw [hcontinues, Bool.false_and, if_neg Bool.false_ne_true]
  simp [midway, reset, Token.source_nil]

end Watch

def Rule.marked (kind : Kind) (assembly : Assembly) (marker : String) : Rule :=
  ⟨kind, assembly, [.marker marker], [], []⟩

section Marked
variable {g : Grammar} {kind : Kind} {assembly : Assembly} {marker opener : String}
  {location : Location} {items begun before run after tokens : List Node} {token : Node}

/-- A block with one end marker, which the latest tokens have begun. The items before these stand
latest first. -/
def OpenBlock.midway (kind : Kind) (assembly : Assembly) (marker opener : String)
    (location : Location) (items begun : List Node) : OpenBlock :=
  { OpenBlock.new (.marked kind assembly marker) opener location with
    items := begun.reverse ++ items
    markers := [Watch.midway marker begun] }

theorem OpenBlock.new_marked :
    new (.marked kind assembly marker) opener location =
      midway kind assembly marker opener location [] [] := by
  simp [new, midway, Watch.midway, Rule.marked, Rule.markers, Token.source_nil]

namespace Reading

/-- A token completes the one marker of a block or is one more of its items. -/
theorem step_midway (outer : List OpenBlock) (token : Node) :
    step g (.midway kind assembly marker opener location items begun) outer token =
      if (Watch.midway marker begun).completes token.fragments.before then do
        let node ← assembly.assemble kind items.reverse opener marker location
        .ok (giveBack node outer)
      else .ok (inside { OpenBlock.midway kind assembly marker opener location items begun with
        items := token :: (begun.reverse ++ items)
        markers := [(Watch.midway marker begun).advance token.fragments.before] } outer) := by
  have hdrop : (begun.reverse ++ items).drop begun.length = items :=
    List.drop_left' List.length_reverse
  have hmarkers : (OpenBlock.midway kind assembly marker opener location items begun).markers =
      [Watch.midway marker begun] := rfl
  rw [step_eq, hmarkers, Watch.firstComplete, List.find?_singleton]
  cases (Watch.midway marker begun).completes token.fragments.before with
  | true =>
    change (assembly.assemble kind ((begun.reverse ++ items).drop begun.length).reverse opener
      marker location >>= fun node => .ok (giveBack node outer)) = _
    rw [hdrop]
    rfl
  | false => rfl

/-- What has been begun of the marker is spelled to its end. -/
theorem step_midway_of_spells (outer : List OpenBlock) (hbegins : Token.Begins marker begun)
    (htoken : token.fragments.before ≠ "") (hspells : Token.source (begun ++ [token]) = marker) :
    step g (.midway kind assembly marker opener location items begun) outer token = (do
      let node ← assembly.assemble kind items.reverse opener marker location
      .ok (giveBack node outer)) := by
  rw [step_midway, if_pos ((Watch.completes_midway hbegins htoken).mpr hspells)]

/-- One more token goes on with the marker. -/
theorem step_midway_of_begins (outer : List OpenBlock) (htoken : token.fragments.before ≠ "")
    (hbegins : Token.Begins marker (begun ++ [token])) :
    step g (.midway kind assembly marker opener location items begun) outer token =
      .ok (inside (.midway kind assembly marker opener location items (begun ++ [token]))
        outer) := by
  have hbegun : Token.Begins marker begun := hbegins.of_initial (List.prefix_append _ _)
  have hcompletes := mt (Watch.completes_midway hbegun htoken).mp hbegins.short
  rw [step_midway, if_neg hcompletes, Watch.advance_midway hbegun htoken hbegins]
  simp [OpenBlock.midway]

/-- A token at which an attempt fails is forgotten with all of the attempt. -/
theorem step_midway_of_fails (outer : List OpenBlock) (htoken : token.fragments.before ≠ "")
    (hfails : Token.Fails marker begun token) :
    step g (.midway kind assembly marker opener location items begun) outer token =
      .ok (inside (.midway kind assembly marker opener location
        ((begun ++ [token]).reverse ++ items) []) outer) := by
  have hcompletes : ¬(Watch.midway marker begun).completes token.fragments.before = true := by
    rw [Watch.completes_midway hfails.begins htoken]
    exact fun hspells => hfails.breaks (hspells ▸ List.prefix_refl _)
  rw [step_midway, if_neg hcompletes, Watch.advance_midway_of_fails hfails htoken]
  simp [OpenBlock.midway]

theorem foldlM_midway_of_begins (outer : List OpenBlock)
    (hfull : ∀ token ∈ tokens, token.fragments.before ≠ "")
    (hbegins : Token.Begins marker (begun ++ tokens)) :
    tokens.foldlM (next g)
        (inside (.midway kind assembly marker opener location items begun) outer) =
      .ok (inside (.midway kind assembly marker opener location items (begun ++ tokens))
        outer) := by
  induction tokens generalizing begun with
  | nil => simp [pure, Except.pure]
  | cons token tokens ih =>
    obtain ⟨htoken, hfull⟩ := List.forall_mem_cons.mp hfull
    rw [List.append_cons] at hbegins ⊢
    have hfirst : Token.Begins marker (begun ++ [token]) :=
      hbegins.of_initial (List.prefix_append _ _)
    rw [List.foldlM_cons, next, step_midway_of_begins outer htoken hfirst, ok_bind]
    exact ih hfull hbegins

/-- Attempts that fail leave nothing begun. -/
theorem foldlM_midway_of_missed (outer : List OpenBlock)
    (hfull : ∀ token ∈ tokens, token.fragments.before ≠ "") (hmissed : Token.Missed marker tokens) :
    tokens.foldlM (next g) (inside (.midway kind assembly marker opener location items []) outer) =
      .ok (inside (.midway kind assembly marker opener location (tokens.reverse ++ items) [])
        outer) := by
  induction hmissed generalizing items with
  | nil => rfl
  | @cons begun rest token hfails _ ih =>
    rw [List.forall_mem_append, List.forall_mem_cons] at hfull
    obtain ⟨hbegun, htoken, hrest⟩ := hfull
    have hbegins : Token.Begins marker ([] ++ begun) := hfails.begins
    rw [List.foldlM_append, foldlM_midway_of_begins outer hbegun hbegins, ok_bind, List.nil_append,
      List.foldlM_cons, next, step_midway_of_fails outer htoken hfails, ok_bind, ih hrest]
    simp

/-- A run that spells the marker where nothing is begun closes the block. -/
theorem foldlM_midway_of_spells (outer : List OpenBlock) (hmarker : marker ≠ "")
    (hfull : ∀ token ∈ run, token.fragments.before ≠ "") (hspells : Token.source run = marker) :
    run.foldlM (next g) (inside (.midway kind assembly marker opener location items []) outer) = (do
      let node ← assembly.assemble kind items.reverse opener marker location
      .ok (giveBack node outer)) := by
  rcases List.eq_nil_or_concat run with rfl | ⟨begun, token, rfl⟩
  · exact absurd (Token.source_nil.symm.trans hspells).symm hmarker
  · rw [List.concat_eq_append] at hfull hspells ⊢
    obtain ⟨hbegun, htoken⟩ := List.forall_mem_append.mp hfull
    have htext : token.fragments.before ≠ "" := htoken token (.head _)
    have hinitial : begun <+: begun ++ [token] := List.prefix_append _ _
    have hbegins : Token.Begins marker begun := by
      refine ⟨hspells ▸ Token.source_initial hinitial, fun hshort => ?_⟩
      have hsame := Token.eq_of_source_eq hfull hinitial (hshort.trans hspells.symm)
      simp at hsame
    have hread : Token.Begins marker ([] ++ begun) := hbegins
    rw [List.foldlM_append, foldlM_midway_of_begins outer hbegun hread, ok_bind, List.nil_append,
      List.foldlM_cons, next, step_midway_of_spells outer hbegins htext hspells]
    cases assembly.assemble kind items.reverse opener marker location <;> rfl

end Reading

end Marked

/-- Every token has text but the one for the end of the input. -/
theorem text_ne_of_mem_dropLast {text file : String} :
    ∀ token ∈ (tokenize text file).dropLast, token.fragments.before ≠ "" := by
  intro token htoken
  obtain ⟨tokens, location, htokens, hall, -⟩ := Token.ofChars_eq_append file {} text.toList
  have hmem : token ∈ tokens := by
    rwa [tokenize, htokens, List.dropLast_concat] at htoken
  have hfills : token.Fills :=
    fills_of_mem_ofChars token (List.dropLast_subset _ htoken) (hall token hmem).kind_ne
  exact hfills.resolve_left (by simp [(hall token hmem).not_isBlock])

theorem parseWith_of_start {g : Grammar} {text file : String} {start : Reading}
    (hstart : g.start? (tokenize text file) = some start) :
    parseWith g text file =
      (tokenize text file).dropLast.foldlM (Reading.next g) start >>= Reading.finish := by
  obtain ⟨rule, hrule, rfl⟩ := Option.map_eq_some_iff.mp hstart
  unfold parseWith Grammar.parse
  rw [hrule]
  dsimp only
  rw [tokenize, Token.takeWhile_ofChars]

/-- A block is read by a rule with one end marker and nothing else to look for. It closes where a
run of tokens spells the marker that begins with the block's first token, or right after a token at
which an attempt to spell it has failed; there is one such run at most. Without one the block is
unclosed. -/
theorem parseWith_marked {g : Grammar} {text file : String} {kind : Kind} {assembly : Assembly}
    {marker opener : String} {location : Location} {outer : List OpenBlock} {start : Reading}
    {front back : List Node} (hmarker : marker ≠ "")
    (hstart : g.start? (tokenize text file) = some start)
    (hcut : (tokenize text file).dropLast = front ++ back)
    (hopened : front.foldlM (Reading.next g) start =
      .ok (.inside (.new (.marked kind assembly marker) opener location) outer)) :
    (∀ before run after, Token.Found marker back before run after →
      (∀ before' run' after', Token.Found marker back before' run' after' →
        before = before' ∧ run = run' ∧ after = after') ∧
      parseWith g text file = do
        let node ← assembly.assemble kind before opener marker location
        let reading ← after.foldlM (Reading.next g) (Reading.giveBack node outer)
        reading.finish) ∧
    ((∀ before run after, ¬Token.Found marker back before run after) →
      parseWith g text file = .error ⟨.unclosed opener, location⟩) := by
  have hfull : ∀ token ∈ back, token.fragments.before ≠ "" := fun token htoken =>
    text_ne_of_mem_dropLast token (hcut ▸ List.mem_append_right _ htoken)
  have hparse : parseWith g text file = back.foldlM (Reading.next g)
      (.inside (.midway kind assembly marker opener location [] []) outer) >>= Reading.finish := by
    rw [parseWith_of_start hstart, hcut, List.foldlM_append, hopened, OpenBlock.new_marked, ok_bind]
  refine ⟨fun before run after hfound => ⟨fun _ _ _ => hfound.unique hfull, ?_⟩, fun hnone => ?_⟩
  · obtain ⟨rfl, hmissed, hspells⟩ := hfound
    simp only [List.forall_mem_append] at hfull
    obtain ⟨⟨hbefore, hrun⟩, -⟩ := hfull
    rw [hparse, List.append_assoc, List.foldlM_append,
      Reading.foldlM_midway_of_missed outer hbefore hmissed, ok_bind, List.foldlM_append,
      Reading.foldlM_midway_of_spells outer hmarker hrun hspells, List.append_nil,
      List.reverse_reverse]
    cases assembly.assemble kind before opener marker location <;> rfl
  · rcases Token.found_or_missed hmarker back with
      ⟨before, run, after, hfound⟩ | ⟨before, begun, rfl, hmissed, hbegins⟩
    · exact absurd hfound (hnone before run after)
    · obtain ⟨hbefore, hbegun⟩ := List.forall_mem_append.mp hfull
      have hread : Token.Begins marker ([] ++ begun) := hbegins
      rw [hparse, List.foldlM_append, Reading.foldlM_midway_of_missed outer hbefore hmissed,
        ok_bind, Reading.foldlM_midway_of_begins outer hbegun hread, ok_bind]
      cases outer <;> rfl

/-- Remarks in the text, each from `<!--` to `-->`. -/
def Grammar.remarks : Grammar where
  toplevel := "top"
  rules :=
    [("top", ⟨.toplevelBlock, .block, [.endOfInput], [("<!--", "remark")], []⟩),
      ("remark", .marked .spaceSymbol .comment "-->")]

/-- The first token of the remark fails, and the marker is found right after it. -/
theorem parseWith_marked_remark :
    ∃ start outer before run after,
      Grammar.remarks.start? (tokenize "<!--a-->b" "f") = some start ∧
      ((tokenize "<!--a-->b" "f").dropLast.take 4).foldlM (Reading.next .remarks) start =
        .ok (.inside (.new (.marked .spaceSymbol .comment "-->") "<!--" (.new "f" 0 0)) outer) ∧
      Token.Found "-->" ((tokenize "<!--a-->b" "f").dropLast.drop 4) before run after ∧
      parseWith .remarks "<!--a-->b" "f" = (do
        let node ← Assembly.comment.assemble .spaceSymbol before "<!--" "-->" (.new "f" 0 0)
        let reading ← after.foldlM (Reading.next .remarks) (Reading.giveBack node outer)
        reading.finish) := by
  have hopened : ∃ start outer, Grammar.remarks.start? (tokenize "<!--a-->b" "f") = some start ∧
      ((tokenize "<!--a-->b" "f").dropLast.take 4).foldlM (Reading.next .remarks) start =
        .ok (.inside (.new (.marked .spaceSymbol .comment "-->") "<!--" (.new "f" 0 0)) outer) := by
    refine ⟨_, [.new ⟨.toplevelBlock, .block, [.endOfInput], [("<!--", "remark")], []⟩ ""
      (.new "f" 0 0)], rfl, ?_⟩
    with_unfolding_all rfl
  have hall : (tokenize "<!--a-->b" "f").dropLast.map (·.fragments.before) =
      ["<", "!", "-", "-", "a", "-", "-", ">", "b"] := by decide +kernel
  have htexts : ((tokenize "<!--a-->b" "f").dropLast.drop 4).map (·.fragments.before) =
      ["a", "-", "-", ">", "b"] := by
    rw [List.map_drop, hall]
    rfl
  obtain ⟨first, rest, hback, hfirst, hrest⟩ := List.map_eq_cons_iff.mp htexts
  have hfails : Token.Fails "-->" [] first := by
    refine ⟨Token.begins_nil (by decide), ?_⟩
    simp [Token.source, hfirst]
  have hspells : Token.source (rest.take 3) = "-->" := by
    simp [Token.source, List.map_take, hrest]
  have hfound : Token.Found "-->" ((tokenize "<!--a-->b" "f").dropLast.drop 4)
      ([] ++ [first]) (rest.take 3) (rest.drop 3) :=
    ⟨by simp [hback], .cons hfails .nil, hspells⟩
  obtain ⟨start, outer, hstart, hread⟩ := hopened
  obtain ⟨hends, -⟩ :=
    parseWith_marked (by decide) hstart (List.take_append_drop 4 _).symm hread
  exact ⟨start, outer, _, _, _, hstart, hread, hfound, (hends _ _ _ hfound).2⟩

/-- The last three tokens spell the marker, but the third hyphen fails an attempt that the first one
begins. -/
theorem parseWith_remark_unclosed :
    (∃ start outer, Grammar.remarks.start? (tokenize "<!--a--->" "f") = some start ∧
      ((tokenize "<!--a--->" "f").dropLast.take 4).foldlM (Reading.next .remarks) start =
        .ok (.inside (.new (.marked .spaceSymbol .comment "-->") "<!--" (.new "f" 0 0)) outer)) ∧
    (∃ before run, (tokenize "<!--a--->" "f").dropLast.drop 4 = before ++ run ∧
      Token.source run = "-->") ∧
    parseWith .remarks "<!--a--->" "f" = .error ⟨.unclosed "<!--", .new "f" 0 0⟩ := by
  refine ⟨⟨_, [.new ⟨.toplevelBlock, .block, [.endOfInput], [("<!--", "remark")], []⟩ ""
    (.new "f" 0 0)], rfl, ?_⟩, ⟨_, _, (List.take_append_drop 2 _).symm, ?_⟩, ?_⟩
  all_goals with_unfolding_all rfl

end Homoicon
