import Homoicon.Proofs.Reading.Lossless

/-! A tree that has been read is written back as the text that it was read from. -/
namespace Homoicon
open Node (unparseAll)

/-- The text of open blocks, the innermost first. -/
def OpenBlock.sourceAll : List OpenBlock → String
  | [] => ""
  | b :: outer => sourceAll outer ++ b.source

/-- The blocks around one that is read by a rule wait for it. The outermost block has no end marker.
-/
def OpenBlock.Stack (g : Grammar) (rule : Rule) : List OpenBlock → Prop
  | [] => rule.markers = []
  | parent :: outer => parent.Waiting g rule ∧ Stack g parent.rule outer

/-- A reading that has come to a point of a text: its blocks hold all the text up to there. -/
def Reading.Spells (g : Grammar) (text : String) : Reading → Prop
  | .inside b outer =>
    b.Sound g ∧ OpenBlock.Stack g b.rule outer ∧ OpenBlock.sourceAll (b :: outer) = text
  | .finished _ => False

namespace OpenBlock
variable {g : Grammar} {b : OpenBlock} {outer : List OpenBlock} {node token : Node}
  {items : List Node} {closer : String}

theorem source_cons (b : OpenBlock) (item : Node) :
    { b with items := item :: b.items }.source = b.source ++ item.unparse := by
  unfold source
  rw [Node.unparseAll_reverse_cons, String.append_assoc]

/-- Where a token completes a marker, the items that the marker began with stand for the rest. -/
theorem source_completed {α : Type} {w : Watch α} {text : String} (hw : w.Spelled b.items)
    (hcompletes : w.completes text = true) :
    b.source ++ text = b.opener ++ unparseAll (b.items.drop w.tokens).reverse ++ w.marker := by
  unfold source
  rw [Node.unparseAll_reverse_split w.tokens, ← hw.of_completes hcompletes]
  simp only [String.append_assoc]

theorem source_new {rule : Rule} {opener : String} {location : Location} :
    (new rule opener location).source = opener := by
  unfold source
  simp [new, Node.unparseAll_nil]

theorem sound_new {name : String} {rule : Rule} {opener : String} (location : Location)
    (hknown : (name, rule) ∈ g.rules) (hlossless : rule.Lossless g opener) :
    (new rule opener location).Sound g where
  known := ⟨name, hknown⟩
  lossless := hlossless
  skips := by simp [new, Function.comp_def]
  triggers := by simp [new, Function.comp_def]
  markers := by simp [new, Function.comp_def]
  track_triggers := by
    refine .of_idle ?_ fun hskips => ?_
    all_goals
      intro w hw
      obtain ⟨trigger, htrigger, rfl⟩ := List.mem_map.mp hw
    · exact ⟨rfl, rfl⟩
    · exact (hlossless.2.2.2.1 hskips).2 trigger htrigger
  track_markers := by
    refine .of_idle ?_ fun hskips => ?_
    all_goals
      intro w hw
      obtain ⟨marker, hmarker, rfl⟩ := List.mem_map.mp hw
    · exact ⟨rfl, rfl⟩
    · exact (hlossless.2.2.2.1 hskips).1 marker hmarker
  escapes := by
    refine fun _ => ⟨false, rfl, fun w hw => ?_⟩
    obtain ⟨skip, -, rfl⟩ := List.mem_map.mp hw
    rfl

/-- A waiting block takes the node of the block in it. -/
theorem Waiting.push {inner : Rule} (h : b.Waiting g inner)
    (hnode : inner.assembly = .block → inner.kind.isBlock = true → node.kind.isBlock = true) :
    { b with items := node :: b.items }.Sound g := by
  refine { h.sound with
    track_triggers := ?_
    track_markers := ?_
    escapes := ?_ }
  · exact .of_idle h.triggers_idle fun hskips w hw =>
      (h.sound.track_triggers.prompt hskips w hw).2
  · exact .of_idle h.markers_idle fun hskips w hw =>
      (h.sound.track_markers.prompt hskips w hw).2
  · intro hassembly
    obtain ⟨hitems, hskips⟩ := h.no_escape hassembly
    obtain ⟨hblock, hkind⟩ := h.fits hassembly
    refine ⟨false, ?_, hskips⟩
    rw [List.reverse_cons]
    exact hitems.append (.code (hnode hblock hkind))

/-- A marker that ends a block which only its opener may end is the opener. -/
theorem closer_eq {rule : Rule} {marker : String} (hmarker : marker ∈ rule.markers)
    (opener : String) (h : ∀ terminator ∈ rule.terminators, terminator = .marker opener) :
    marker = opener := by
  unfold Rule.markers at hmarker
  obtain ⟨terminator, hterminator, heq⟩ := List.mem_filterMap.mp hmarker
  rw [h terminator hterminator] at heq
  exact (Option.some.inj heq).symm

/-- A closed block's node holds the text of the block and its closer. -/
theorem close_source (hb : b.Sound g) (hcloser : ∀ opener,
      (∀ terminator ∈ b.rule.terminators, terminator = .marker opener) → closer = opener)
    {others : List Node} (hitems : b.items.reverse = items ++ others)
    (h : b.close items closer = .ok node) :
    node.unparse = b.opener ++ unparseAll items ++ closer ∧
      (b.rule.assembly = .block → b.rule.kind.isBlock = true → node.kind.isBlock = true) := by
  unfold close at h
  constructor
  · refine Assembly.assemble_source ?_ h
    cases hassembly : b.rule.assembly with
    | block => exact hb.lossless.2.1 hassembly
    | comment => trivial
    | raw => exact hcloser _ (hb.lossless.2.2.1 (.inl hassembly))
    | interpolated =>
      obtain ⟨pending, hescapes, -⟩ := hb.escapes hassembly
      rw [hitems] at hescapes
      exact ⟨hcloser _ (hb.lossless.2.2.1 (.inr hassembly)), hescapes.of_append⟩
    | custom finish =>
      have hcustom := hb.lossless.1
      rw [hassembly] at hcustom
      cases hcustom
  · intro hassembly hkind
    rw [hassembly] at h
    cases h
    exact hkind

/-- A block past a token that a skip hides from its other markers. -/
def skipped (b : OpenBlock) (token : Node) : OpenBlock :=
  { b with
    skips := b.skips.map (Watch.advance · token.fragments.before)
    items := token :: b.items }

/-- A block past a token that all its markers have seen. -/
def watched (b : OpenBlock) (token : Node) : OpenBlock :=
  { b.skipped token with
    triggers := b.triggers.map (Watch.advance · token.fragments.before)
    markers := b.markers.map (Watch.advance · token.fragments.before) }

section Token
variable (hb : b.Sound g) (htoken : token.IsToken)
include hb htoken

/-- One more token keeps the watches of escapes in step with the items. -/
theorem escapes_push (hassembly : b.rule.assembly = .interpolated) :
    ∃ pending, Escapes false (token :: b.items).reverse pending ∧
      ∀ w ∈ (b.skipped token).skips, w.FollowsEscape pending := by
  obtain ⟨pending, hitems, hskips⟩ := hb.escapes hassembly
  refine ⟨!pending && token.fragments.before == "\\", ?_, fun w hw => ?_⟩
  · rw [List.reverse_cons]
    exact hitems.append (.token htoken pending)
  · obtain ⟨v, hv, rfl⟩ := List.mem_map.mp hw
    have hmarker : v.marker ∈ b.rule.skips := hb.skips ▸ List.mem_map_of_mem hv
    obtain ⟨c, hc⟩ := (hb.lossless.2.2.2.2 hassembly).1 _ hmarker
    exact (hskips v hv).advance _ hc

theorem skipped_sound (hskip : b.skips.any (·.completes token.fragments.before) = true) :
    (b.skipped token).Sound g where
  known := hb.known
  lossless := hb.lossless
  skips := by simp [skipped, Function.comp_def, ← hb.skips]
  triggers := hb.triggers
  markers := hb.markers
  track_triggers := by
    obtain ⟨w, hw, -⟩ := List.any_eq_true.mp hskip
    have hskips : b.rule.skips ≠ [] := hb.skips ▸ List.ne_nil_of_mem (List.mem_map_of_mem hw)
    have hprompt := hb.track_triggers.prompt hskips
    exact .of_idle (fun w hw => (hprompt w hw).1) fun _ w hw => (hprompt w hw).2
  track_markers := by
    obtain ⟨w, hw, -⟩ := List.any_eq_true.mp hskip
    have hskips : b.rule.skips ≠ [] := hb.skips ▸ List.ne_nil_of_mem (List.mem_map_of_mem hw)
    have hprompt := hb.track_markers.prompt hskips
    exact .of_idle (fun w hw => (hprompt w hw).1) fun _ w hw => (hprompt w hw).2
  escapes := escapes_push hb htoken

theorem watched_sound : (b.watched token).Sound g where
  known := hb.known
  lossless := hb.lossless
  skips := by simp [watched, skipped, Function.comp_def, ← hb.skips]
  triggers := by simp [watched, skipped, Function.comp_def, ← hb.triggers]
  markers := by simp [watched, skipped, Function.comp_def, ← hb.markers]
  track_triggers := hb.track_triggers.advance htoken.unparse_eq
  track_markers := hb.track_markers.advance htoken.unparse_eq
  escapes := escapes_push hb htoken

end Token

section Trigger
variable (hb : b.Sound g) {trigger : Watch String} (htrigger : trigger ∈ b.triggers)
  (hcompletes : trigger.completes token.fragments.before = true)
  (hskip : ¬b.skips.any (·.completes token.fragments.before) = true)
include hb htrigger

theorem mem_rule_triggers : (trigger.marker, trigger.meaning) ∈ b.rule.triggers :=
  hb.triggers ▸ List.mem_map_of_mem (f := fun w => (w.marker, w.meaning)) htrigger

include hcompletes hskip

/-- Where a trigger completes and no skip does, no backslash is pending. -/
theorem no_escape_of_trigger (hassembly : b.rule.assembly = .interpolated) :
    trigger.Idle ∧ Escapes false b.items.reverse false := by
  obtain ⟨pending, hitems, hskips⟩ := hb.escapes hassembly
  have hmem := mem_rule_triggers hb htrigger
  obtain ⟨hescaped, -⟩ := (hb.lossless.2.2.2.2 hassembly).2 _ hmem
  obtain ⟨hidle, -⟩ := hb.track_triggers.prompt (List.ne_nil_of_mem hescaped) trigger htrigger
  cases pending with
  | false => exact ⟨hidle, hitems⟩
  | true =>
    -- the skip of the backslash and the trigger would have completed
    rw [← hb.skips] at hescaped
    obtain ⟨skip, hskipmem, hmarker⟩ := List.mem_map.mp hescaped
    obtain ⟨hne, htext⟩ := Watch.completes_iff.mp hcompletes
    have hcomplete : skip.completes token.fragments.before = true := by
      refine Watch.completes_iff.mpr ⟨hne, ?_⟩
      rw [htext, hidle.2, hmarker, hskips skip hskipmem, String.toList_append]
      rfl
    exact absurd (List.any_eq_true.mpr ⟨skip, hskipmem, hcomplete⟩) hskip

/-- Without the items that the trigger began with, no backslash is pending either. -/
theorem escapes_drop (hassembly : b.rule.assembly = .interpolated) :
    Escapes false (b.items.drop trigger.tokens).reverse false ∧
      ∀ w ∈ (b.watched token).reset.skips, w.FollowsEscape false := by
  obtain ⟨hidle, hitems⟩ := no_escape_of_trigger hb htrigger hcompletes hskip hassembly
  constructor
  · rwa [hidle.1, List.drop_zero]
  · intro w hw
    obtain ⟨v, -, rfl⟩ := List.mem_map.mp hw
    rfl

/-- A block that a trigger interrupts loses the items that the trigger began with. -/
theorem waiting_reset (htoken : token.IsToken) {inner : Rule}
    (hinner : g.rule? trigger.meaning = some inner) :
    { (b.watched token).reset with items := b.items.drop trigger.tokens }.Waiting g inner where
  sound :=
    { known := hb.known
      lossless := hb.lossless
      skips := by simpa [reset, watched, skipped, Function.comp_def] using hb.skips
      triggers := by simpa [reset, watched, skipped, Function.comp_def] using hb.triggers
      markers := by simpa [reset, watched, skipped, Function.comp_def] using hb.markers
      track_triggers := (watched_sound hb htoken).track_triggers.reset _
      track_markers := (watched_sound hb htoken).track_markers.reset _
      escapes := fun h => ⟨false, escapes_drop hb htrigger hcompletes hskip h⟩ }
  fits := fun hassembly =>
    ((hb.lossless.2.2.2.2 hassembly).2 _ (mem_rule_triggers hb htrigger)).2 inner hinner
  triggers_idle := by
    intro w hw
    obtain ⟨v, -, rfl⟩ := List.mem_map.mp hw
    exact Watch.idle_reset
  markers_idle := by
    intro w hw
    obtain ⟨v, -, rfl⟩ := List.mem_map.mp hw
    exact Watch.idle_reset
  no_escape := escapes_drop hb htrigger hcompletes hskip

end Trigger

end OpenBlock

namespace Reading
open OpenBlock (Stack sourceAll)

variable {g : Grammar} {b : OpenBlock} {outer : List OpenBlock} {token : Node} {text : String}
  {reading : Reading}

theorem spells_giveBack {inner : Rule} {node : Node} (hstack : Stack g inner outer)
    (hmarkers : inner.markers ≠ [])
    (hnode : inner.assembly = .block → inner.kind.isBlock = true → node.kind.isBlock = true) :
    (giveBack node outer).Spells g (sourceAll outer ++ node.unparse) := by
  cases outer with
  | nil => exact absurd hstack hmarkers
  | cons parent outer =>
    obtain ⟨hparent, houter⟩ := hstack
    refine ⟨hparent.push hnode, houter, ?_⟩
    unfold OpenBlock.sourceAll
    rw [OpenBlock.source_cons, String.append_assoc]

/-- A block that has been entered is new, and the one around it has lost the trigger. -/
theorem enter_eq_ok {trigger : Watch String} {spanned : Nat}
    (h : enter g b outer trigger spanned token = .ok reading) :
    ∃ inner, g.rule? trigger.meaning = some inner ∧
      reading = .inside
        (.new inner trigger.marker ((b.items.take spanned).getLast?.getD token).location)
        ({ b.reset with items := b.items.drop spanned } :: outer) := by
  unfold enter at h
  dsimp only at h
  split at h
  · cases h
  · next inner hinner =>
    cases h
    exact ⟨inner, hinner, rfl⟩

/-- All that a token can do inside a block: be hidden by a skip, end the block, begin a block in it
or be one more item of it. -/
theorem step_cases (h : step g b outer token = .ok reading) :
    (b.skips.any (·.completes token.fragments.before) = true ∧
      reading = inside (b.skipped token) outer) ∨
    ¬b.skips.any (·.completes token.fragments.before) = true ∧
      ((∃ marker node, Watch.firstComplete b.markers token.fragments.before =
          some (marker, marker.tokens + 1) ∧ marker ∈ b.markers ∧
          marker.completes token.fragments.before = true ∧
          b.close (b.items.drop marker.tokens).reverse marker.marker = .ok node ∧
          reading = giveBack node outer) ∨
        (∃ trigger inner, Watch.firstComplete b.markers token.fragments.before = none ∧
          Watch.firstComplete b.triggers token.fragments.before =
            some (trigger, trigger.tokens + 1) ∧ trigger ∈ b.triggers ∧
          trigger.completes token.fragments.before = true ∧
          g.rule? trigger.meaning = some inner ∧
          reading = inside
            (.new inner trigger.marker
              (((b.watched token).items.take (trigger.tokens + 1)).getLast?.getD token).location)
            ({ (b.watched token).reset with items := b.items.drop trigger.tokens } :: outer)) ∨
        reading = inside (b.watched token) outer) := by
  unfold Reading.step at h
  dsimp only at h
  split at h
  · next hskip =>
    cases h
    exact .inl ⟨hskip, rfl⟩
  · next hskip =>
    refine .inr ⟨hskip, ?_⟩
    split at h
    · next marker spanned hmarker =>
      obtain ⟨hmem, hcompletes, rfl⟩ := Watch.firstComplete_eq_some hmarker
      obtain ⟨node, hnode, h⟩ := bind_eq_ok.mp h
      cases h
      exact .inl ⟨marker, node, hmarker, hmem, hcompletes, hnode, rfl⟩
    · next hmarker =>
      split at h
      · next trigger spanned htrigger =>
        obtain ⟨hmem, hcompletes, rfl⟩ := Watch.firstComplete_eq_some htrigger
        obtain ⟨inner, hinner, rfl⟩ := enter_eq_ok h
        exact .inr (.inl ⟨trigger, inner, hmarker, htrigger, hmem, hcompletes, hinner, rfl⟩)
      · cases h
        exact .inr (.inr rfl)

/-- A reading that goes on by one token holds that token's text too. -/
theorem spells_step (hg : g.Lossless) (hb : b.Sound g) (hstack : Stack g b.rule outer)
    (htoken : token.IsToken) (h : step g b outer token = .ok reading) :
    reading.Spells g (sourceAll (b :: outer) ++ token.fragments.before) := by
  have hpush : sourceAll (b :: outer) ++ token.fragments.before =
      sourceAll outer ++ (b.source ++ token.unparse) := by
    rw [htoken.unparse_eq]
    exact String.append_assoc
  rw [hpush]
  rcases step_cases h with ⟨hskip, rfl⟩ | ⟨hskip, ⟨marker, node, -, hmem, hcompletes, hnode, rfl⟩ |
    ⟨trigger, inner, -, -, hmem, hcompletes, hinner, rfl⟩ | rfl⟩
  · refine ⟨OpenBlock.skipped_sound hb htoken hskip, hstack, ?_⟩
    exact congrArg (sourceAll outer ++ ·) (OpenBlock.source_cons b token)
  · have hknown : marker.marker ∈ b.rule.markers := hb.markers ▸ List.mem_map_of_mem hmem
    obtain ⟨htext, hkind⟩ :=
      OpenBlock.close_source hb (OpenBlock.closer_eq hknown) (Node.reverse_split _ _) hnode
    rw [OpenBlock.source_completed (hb.track_markers.spelled marker hmem)
      (htoken.unparse_eq ▸ hcompletes), ← htext]
    exact spells_giveBack hstack (List.ne_nil_of_mem hknown) hkind
  · have htriggers := OpenBlock.mem_rule_triggers hb hmem
    obtain ⟨name, hname⟩ := hb.known
    refine ⟨OpenBlock.sound_new _ (Grammar.mem_of_rule? hinner)
        (hg.2 _ hname _ htriggers inner hinner),
      ⟨OpenBlock.waiting_reset hb hmem hcompletes hskip htoken hinner, hstack⟩, ?_⟩
    rw [OpenBlock.source_completed (hb.track_triggers.spelled trigger hmem)
      (htoken.unparse_eq ▸ hcompletes), ← String.append_assoc]
    exact congrArg (_ ++ ·) OpenBlock.source_new
  · refine ⟨OpenBlock.watched_sound hb htoken, hstack, ?_⟩
    exact congrArg (sourceAll outer ++ ·) (OpenBlock.source_cons b token)

theorem Spells.next (hg : g.Lossless) (hreading : reading.Spells g text) {later : Reading}
    (htoken : token.IsToken) (h : Reading.next g reading token = .ok later) :
    later.Spells g (text ++ token.unparse) := by
  cases reading with
  | inside b outer =>
    obtain ⟨hb, hstack, rfl⟩ := hreading
    rw [htoken.unparse_eq]
    exact spells_step hg hb hstack htoken h
  | finished tree => exact hreading.elim

/-- A reading that goes on by several tokens holds their text. -/
theorem Spells.foldlM (hg : g.Lossless) {tokens : List Node} (htokens : ∀ t ∈ tokens, t.IsToken)
    (hreading : reading.Spells g text) {later : Reading}
    (h : tokens.foldlM (Reading.next g) reading = .ok later) :
    later.Spells g (text ++ unparseAll tokens) := by
  induction tokens generalizing reading text with
  | nil =>
    cases h
    rwa [Node.unparseAll_nil, String.append_empty]
  | cons token tokens ih =>
    rw [List.foldlM_cons] at h
    obtain ⟨middle, hmiddle, h⟩ := bind_eq_ok.mp h
    obtain ⟨htoken, htokens⟩ := List.forall_mem_cons.mp htokens
    rw [Node.unparseAll_cons, ← String.append_assoc]
    exact ih htokens (hreading.next hg htoken hmiddle) h

/-- A block that the end of the input closes holds its text in its node. -/
theorem close_at_end (hb : b.Sound g) (hends : b.rule.acceptsEndOfInput = true) {node : Node}
    (h : b.close b.items.reverse "" = .ok node) :
    node.unparse = b.source ∧
      (b.rule.assembly = .block → b.rule.kind.isBlock = true → node.kind.isBlock = true) := by
  have hcloser : ∀ opener, (∀ terminator ∈ b.rule.terminators, terminator = .marker opener) →
      "" = opener := fun opener hall => by
    unfold Rule.acceptsEndOfInput at hends
    cases hall _ (List.contains_iff_mem.mp hends)
  obtain ⟨htext, hkind⟩ := OpenBlock.close_source hb hcloser (List.append_nil _).symm h
  rw [String.append_empty] at htext
  exact ⟨htext, hkind⟩

/-- The end of the input closes the innermost block and goes on to the one around it. -/
theorem closeAll_eq (b : OpenBlock) (outer : List OpenBlock) :
    closeAll b outer =
      (if b.rule.acceptsEndOfInput then b.close b.items.reverse ""
        else .error ⟨.unclosed b.opener, b.location⟩) >>= fun node =>
          (giveBack node outer).finish := by
  cases outer with
  | nil =>
    unfold closeAll
    exact (bind_pure _).symm
  | cons parent outer =>
    unfold closeAll
    split <;> rfl

theorem closeAll_eq_ok {tree : Node} (h : closeAll b outer = .ok tree) :
    b.rule.acceptsEndOfInput = true ∧ ∃ node, b.close b.items.reverse "" = .ok node ∧
      (giveBack node outer).finish = .ok tree := by
  rw [closeAll_eq] at h
  obtain ⟨node, hnode, h⟩ := bind_eq_ok.mp h
  split at hnode
  · next hends => exact ⟨hends, node, hnode, h⟩
  · cases hnode

/-- At the end of the input, the tree holds the text of all open blocks. -/
theorem closeAll_source (hb : b.Sound g) (hstack : Stack g b.rule outer) {tree : Node}
    (h : closeAll b outer = .ok tree) : tree.unparse = sourceAll (b :: outer) := by
  induction outer generalizing b with
  | nil =>
    obtain ⟨hends, node, hnode, h⟩ := closeAll_eq_ok h
    cases h
    rw [(close_at_end hb hends hnode).1]
    exact String.empty_append.symm
  | cons parent outer ih =>
    obtain ⟨hends, node, hnode, h⟩ := closeAll_eq_ok h
    obtain ⟨htext, hkind⟩ := close_at_end hb hends hnode
    obtain ⟨hparent, houter⟩ := hstack
    rw [ih (hparent.push hkind) houter h]
    unfold sourceAll
    rw [OpenBlock.source_cons, htext, ← String.append_assoc]
    rfl

end Reading

/-- A tree that is read is what the reading of all tokens comes to. -/
theorem Grammar.parse_eq_ok {g : Grammar} {tokens : List Node} {tree : Node}
    (h : g.parse tokens = .ok tree) :
    ∃ rule reading, g.rule? g.toplevel = some rule ∧
      (tokens.takeWhile (·.kind != .endOfInput)).foldlM (Reading.next g)
        (.inside (.new rule "" ((tokens.head?.map (·.location)).getD .unknown)) []) = .ok reading ∧
      reading.finish = .ok tree := by
  unfold parse at h
  dsimp only at h
  split at h
  · cases h
  · next rule hrule =>
    obtain ⟨reading, hreading, hfinish⟩ := bind_eq_ok.mp h
    exact ⟨rule, reading, hrule, hreading, hfinish⟩

theorem Reading.spells_new {g : Grammar} (hg : g.Lossless) {rule : Rule}
    (hrule : g.rule? g.toplevel = some rule) (start : Location) :
    Reading.Spells g "" (.inside (.new rule "" start) []) := by
  obtain ⟨hmarkers, hlossless⟩ := hg.1 rule hrule
  exact ⟨OpenBlock.sound_new start (Grammar.mem_of_rule? hrule) hlossless, hmarkers,
    String.empty_append.trans OpenBlock.source_new⟩

/-- Trees that are read under a lossless grammar are written back as the text they were read from.
-/
theorem unparse_of_parseWith {g : Grammar} (hg : g.Lossless) {text file : String} {tree : Node}
    (h : parseWith g text file = .ok tree) : tree.unparse = text := by
  obtain ⟨tokens, htokens, hall, htext⟩ := takeWhile_tokenize text file
  obtain ⟨rule, reading, hrule, hreading, hfinish⟩ := Grammar.parse_eq_ok h
  rw [htokens] at hreading
  have hend := (Reading.spells_new hg hrule _).foldlM hg hall hreading
  rw [htext, String.empty_append] at hend
  cases reading with
  | finished tree => exact hend.elim
  | inside b outer =>
    obtain ⟨hb, hstack, hsource⟩ := hend
    rw [← hsource]
    exact Reading.closeAll_source hb hstack hfinish

/-- Every tree that is read is written back as the text that it was read from. -/
theorem unparse_parse {text file : String} {tree : Node} (h : parse text file = .ok tree) :
    tree.unparse = text :=
  unparse_of_parseWith Grammar.standard_lossless h

theorem unparse_parse_interpolated :
    ∃ tree, parse "f(\"a\\n\x7bb\x7d\", 'c\\'') ## d ##" "main" = .ok tree ∧
      tree.unparse = "f(\"a\\n\x7bb\x7d\", 'c\\'') ## d ##" := by
  have hok : (parse "f(\"a\\n\x7bb\x7d\", 'c\\'') ## d ##" "main").isOk = true := by decide +kernel
  cases h : parse "f(\"a\\n\x7bb\x7d\", 'c\\'') ## d ##" "main" with
  | error e =>
    rw [h] at hok
    cases hok
  | ok tree => exact ⟨tree, rfl, unparse_parse h⟩

end Homoicon
