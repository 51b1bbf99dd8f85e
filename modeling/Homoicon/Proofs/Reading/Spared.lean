import Homoicon.Proofs.Reading.Reconstruction

/-!
Under any rules for blocks and comments, a tree is written back as the text that it was read from,
unless a marker is completed by a token that takes one with it which a skip has hidden.
-/
namespace Homoicon
open Node (unparseAll)

/-- A rule of blocks that are kept as they are, or of comments. An empty block of the kind of maps
would be shown with a colon. -/
def Rule.Plain (rule : Rule) : Prop :=
  rule.assembly = .block ∧ rule.kind ≠ .map ∨ rule.assembly = .comment

instance (rule : Rule) : Decidable rule.Plain := inferInstanceAs (Decidable (_ ∨ _))

/-- A grammar of such rules, the topmost of which ends only at the end of the input. -/
def Grammar.Plain (g : Grammar) : Prop :=
  (∀ rule ∈ g.rule? g.toplevel, rule.markers = []) ∧ ∀ named ∈ g.rules, named.2.Plain

instance (g : Grammar) : Decidable g.Plain := inferInstanceAs (Decidable (_ ∧ _))

def Watch.bare {α : Type} (w : Watch α) : Watch Unit := { w with meaning := () }

namespace OpenBlock

def hides (b : OpenBlock) (text : String) : Bool := b.skips.any (·.completes text)

/-- The watches of end markers and those of triggers, in the order in which they count. -/
def watches (b : OpenBlock) : List (Watch Unit) := b.markers ++ b.triggers.map Watch.bare

/-- The end marker or trigger that a token of the given text completes, and how many tokens of the
block are taken for it. -/
def completed? (b : OpenBlock) (text : String) : Option (String × Nat) :=
  if b.hides text then none
  else (Watch.firstComplete b.watches text).map fun (w, spanned) => (w.marker, spanned)

end OpenBlock

/-- Where the reading of tokens begins. -/
def Grammar.start? (g : Grammar) (tokens : List Node) : Option Reading :=
  (g.rule? g.toplevel).map fun rule =>
    .inside (.new rule "" ((tokens.head?.map (·.location)).getD .unknown)) []

namespace Reading

/-- Whether all tokens that are taken for a marker were seen by it, none of them being hidden by a
skip. The latest `seen` tokens were hidden by none. -/
def spares (g : Grammar) (seen : Nat) : Reading → List Node → Bool
  | inside b outer, token :: tokens =>
    (b.completed? token.fragments.before).all (·.2 ≤ seen + 1) &&
      match step g b outer token with
      | .ok later => spares g (if b.hides token.fragments.before then 0 else seen + 1) later tokens
      | .error _ => true
  | _, _ => true

end Reading

/-- Whether reading the tokens takes none for a marker that a skip has hidden. -/
def Grammar.spares (g : Grammar) (tokens : List Node) : Bool :=
  (g.start? tokens).all (·.spares g 0 (tokens.takeWhile (·.kind != .endOfInput)))

namespace Watch
variable {α : Type} {w : Watch α} {items : List Node} {seen : Nat} {token : Node} {text : String}

/-- What a watch knows that was shown the latest `seen` tokens: one that goes back further may have
missed some. -/
def Follows (seen : Nat) (items : List Node) (w : Watch α) : Prop :=
  w.tokens ≤ seen → w.Spelled items

theorem Follows.hidden (h : w.Follows seen items) (token : Node) :
    w.Follows 0 (token :: items) := by
  intro hzero
  have hspelled := h (by omega)
  unfold Spelled at *
  rw [Nat.le_zero.mp hzero] at *
  exact hspelled

theorem Follows.advance (h : w.Follows seen items) (htoken : token.unparse = text) :
    (w.advance text).Follows (seen + 1) (token :: items) := by
  intro hseen
  unfold Watch.advance at *
  split
  · next hgo =>
    rw [if_pos hgo] at hseen
    have hspelled := (h (Nat.le_of_succ_le_succ hseen)).advance htoken
    unfold Watch.advance at hspelled
    rwa [if_pos hgo] at hspelled
  · exact idle_reset.spelled

theorem bare_advance (w : Watch α) : (w.advance text).bare = w.bare.advance text := by
  unfold Watch.advance
  exact apply_ite Watch.bare _ _ _

theorem firstComplete_append (watches others : List (Watch α)) (text : String) :
    firstComplete (watches ++ others) text =
      (firstComplete watches text).or (firstComplete others text) := by
  unfold firstComplete
  rw [List.find?_append]
  exact Option.map_or

theorem firstComplete_bare (watches : List (Watch α)) (text : String) :
    firstComplete (watches.map bare) text =
      (firstComplete watches text).map fun (w, spanned) => (w.bare, spanned) := by
  unfold firstComplete
  rw [List.find?_map, Option.map_map, Option.map_map]
  rfl

end Watch

namespace OpenBlock
variable {g : Grammar} {b : OpenBlock} {outer : List OpenBlock} {seen : Nat} {token node : Node}
  {items : List Node} {closer text : String}

theorem mem_watches_of_marker {w : Watch Unit} (h : w ∈ b.markers) : w ∈ b.watches :=
  List.mem_append_left _ h

theorem mem_watches_of_trigger {w : Watch String} (h : w ∈ b.triggers) : w.bare ∈ b.watches :=
  List.mem_append_right _ (List.mem_map_of_mem h)

theorem watches_reset : b.reset.watches = b.watches.map Watch.reset := by
  unfold watches reset
  rw [List.map_append, List.map_map, List.map_map]
  rfl

theorem watches_watched :
    (b.watched token).watches = b.watches.map (·.advance token.fragments.before) := by
  unfold watches watched
  rw [List.map_append, List.map_map, List.map_map]
  refine congrArg (_ ++ ·) (List.map_congr_left fun w _ => ?_)
  exact w.bare_advance

theorem completed?_of_marker {w : Watch Unit} {spanned : Nat} (hhides : b.hides text = false)
    (h : Watch.firstComplete b.markers text = some (w, spanned)) :
    b.completed? text = some (w.marker, spanned) := by
  unfold completed? watches
  rw [hhides, Watch.firstComplete_append, h]
  rfl

theorem completed?_of_trigger {w : Watch String} {spanned : Nat} (hhides : b.hides text = false)
    (hmarkers : Watch.firstComplete b.markers text = none)
    (h : Watch.firstComplete b.triggers text = some (w, spanned)) :
    b.completed? text = some (w.marker, spanned) := by
  unfold completed? watches
  rw [hhides, Watch.firstComplete_append, hmarkers, Watch.firstComplete_bare, h]
  rfl

/-- What is taken for a marker is as many tokens as a watch has seen of it, and one. -/
theorem exists_watch {marker : String} {spanned : Nat}
    (h : b.completed? text = some (marker, spanned)) :
    ∃ w ∈ b.watches, w.completes text = true ∧ w.marker = marker ∧ spanned = w.tokens + 1 := by
  unfold completed? at h
  split at h
  · cases h
  · obtain ⟨⟨w, n⟩, hw, heq⟩ := Option.map_eq_some_iff.mp h
    cases heq
    obtain ⟨hmem, hcompletes, rfl⟩ := Watch.firstComplete_eq_some hw
    exact ⟨w, hmem, hcompletes, rfl, rfl⟩

def Follows (seen : Nat) (b : OpenBlock) : Prop := ∀ w ∈ b.watches, w.Follows seen b.items

def Idle (b : OpenBlock) : Prop := ∀ w ∈ b.watches, w.Idle

/-- The blocks around one wait for it. The outermost block of all has no end marker. -/
def Rooted (b : OpenBlock) : List OpenBlock → Prop
  | [] => b.markers = []
  | parent :: outer => parent.rule.Plain ∧ parent.Idle ∧ parent.Rooted outer

theorem Rooted.congr {later : OpenBlock} (h : b.Rooted outer)
    (hmarkers : b.markers = [] → later.markers = []) : later.Rooted outer := by
  cases outer with
  | nil => exact hmarkers h
  | cons parent outer => exact h

theorem Idle.follows (h : b.Idle) : b.Follows seen := fun w hw _ => (h w hw).spelled

theorem idle_new (rule : Rule) (opener : String) (location : Location) :
    (new rule opener location).Idle := by
  intro w hw
  rcases List.mem_append.mp hw with hw | hw
  · obtain ⟨marker, -, rfl⟩ := List.mem_map.mp hw
    exact ⟨rfl, rfl⟩
  · obtain ⟨v, hv, rfl⟩ := List.mem_map.mp hw
    obtain ⟨trigger, -, rfl⟩ := List.mem_map.mp hv
    exact ⟨rfl, rfl⟩

theorem idle_reset : b.reset.Idle := by
  intro w hw
  rw [watches_reset] at hw
  obtain ⟨v, -, rfl⟩ := List.mem_map.mp hw
  exact Watch.idle_reset

theorem Follows.skipped (h : b.Follows seen) : (b.skipped token).Follows 0 :=
  fun w hw => (h w hw).hidden token

theorem Follows.watched (h : b.Follows seen) (htoken : token.IsToken) :
    (b.watched token).Follows (seen + 1) := by
  intro w hw
  rw [watches_watched] at hw
  obtain ⟨v, hv, rfl⟩ := List.mem_map.mp hw
  exact (h v hv).advance htoken.unparse_eq

theorem markers_watched (h : b.markers = []) : (b.watched token).markers = [] :=
  List.map_eq_nil_iff.mpr h

theorem markers_reset_watched (h : b.markers = []) : (b.watched token).reset.markers = [] :=
  List.map_eq_nil_iff.mpr (markers_watched h)

/-- The tokens that are taken for a marker spell it. -/
theorem Follows.spelled {marker : String} {spanned : Nat} (h : b.Follows seen)
    (htoken : token.IsToken)
    (hcompleted : b.completed? token.fragments.before = some (marker, spanned))
    (hseen : spanned ≤ seen + 1) :
    unparseAll ((token :: b.items).take spanned).reverse = marker := by
  obtain ⟨w, hw, hcompletes, rfl, rfl⟩ := exists_watch hcompleted
  have hspelled := h w hw (Nat.le_of_succ_le_succ hseen)
  rw [List.take_succ_cons, Node.unparseAll_reverse_cons, htoken.unparse_eq]
  exact hspelled.of_completes hcompletes

theorem close_plain (hplain : b.rule.Plain) (h : b.close items closer = .ok node) :
    node.unparse = b.opener ++ unparseAll items ++ closer := by
  unfold close at h
  refine Assembly.assemble_source ?_ h
  rcases hplain with ⟨hassembly, hkind⟩ | hassembly
  · rw [hassembly]
    exact hkind
  · rw [hassembly]
    trivial

end OpenBlock

namespace Reading
open OpenBlock (sourceAll)
variable {g : Grammar} {b : OpenBlock} {outer : List OpenBlock} {seen : Nat} {token : Node}
  {text : String} {reading : Reading}

/-- A reading that has come to a point of a text: its blocks hold all the text up to there, and the
watches of the innermost were shown the latest `seen` tokens. -/
def Carries (seen : Nat) (text : String) : Reading → Prop
  | inside b outer =>
    b.rule.Plain ∧ b.Follows seen ∧ b.Rooted outer ∧ sourceAll (b :: outer) = text
  | finished _ => False

/-- All that a token can do inside a block. -/
inductive Moves (g : Grammar) (b : OpenBlock) (outer : List OpenBlock) (token : Node) :
    Reading → Prop
  | hidden (hhides : b.hides token.fragments.before = true) :
      Moves g b outer token (inside (b.skipped token) outer)
  | closed {marker : Watch Unit} {node : Node} (hmem : marker ∈ b.markers)
      (hcompletes : marker.completes token.fragments.before = true)
      (hhides : b.hides token.fragments.before = false)
      (hcompleted : b.completed? token.fragments.before = some (marker.marker, marker.tokens + 1))
      (hnode : b.close (b.items.drop marker.tokens).reverse marker.marker = .ok node) :
      Moves g b outer token (giveBack node outer)
  | entered {trigger : Watch String} {inner : Rule} {location : Location}
      (hmem : trigger ∈ b.triggers)
      (hcompletes : trigger.completes token.fragments.before = true)
      (hhides : b.hides token.fragments.before = false)
      (hcompleted : b.completed? token.fragments.before = some (trigger.marker, trigger.tokens + 1))
      (hinner : g.rule? trigger.meaning = some inner) :
      Moves g b outer token (inside (.new inner trigger.marker location)
        ({ (b.watched token).reset with items := b.items.drop trigger.tokens } :: outer))
  | seen (hhides : b.hides token.fragments.before = false) :
      Moves g b outer token (inside (b.watched token) outer)

theorem moves_of_step (h : step g b outer token = .ok reading) : Moves g b outer token reading := by
  rcases step_cases h with ⟨hhides, rfl⟩ | ⟨hhides, hmoves⟩
  · exact .hidden hhides
  · have hhides : b.hides token.fragments.before = false := Bool.eq_false_iff.mpr hhides
    rcases hmoves with ⟨marker, node, hmarker, hmem, hcompletes, hnode, rfl⟩ |
      ⟨trigger, inner, hmarker, htrigger, hmem, hcompletes, hinner, rfl⟩ | rfl
    · exact .closed hmem hcompletes hhides (OpenBlock.completed?_of_marker hhides hmarker) hnode
    · exact .entered hmem hcompletes hhides
        (OpenBlock.completed?_of_trigger hhides hmarker htrigger) hinner
    · exact .seen hhides

/-- A block that has waited takes the node of the block in it. -/
theorem carries_push (seen : Nat) (hplain : b.rule.Plain) (hidle : b.Idle)
    (hrooted : b.Rooted outer) (node : Node) :
    (inside { b with items := node :: b.items } outer).Carries seen
      (sourceAll (b :: outer) ++ node.unparse) := by
  have hpushed : { b with items := node :: b.items }.Idle := hidle
  refine ⟨hplain, hpushed.follows, hrooted.congr id, ?_⟩
  unfold sourceAll
  rw [OpenBlock.source_cons, String.append_assoc]

theorem carries_giveBack (hrooted : b.Rooted outer) (hmarkers : b.markers ≠ []) (node : Node) :
    (giveBack node outer).Carries seen (sourceAll outer ++ node.unparse) := by
  cases outer with
  | nil => exact absurd hrooted hmarkers
  | cons parent outer =>
    obtain ⟨hplain, hidle, hrooted⟩ := hrooted
    exact carries_push seen hplain hidle hrooted node

/-- A reading that goes on by one token carries that token's text too. -/
theorem carries_step (hg : g.Plain) (hplain : b.rule.Plain) (hfollows : b.Follows seen)
    (hrooted : b.Rooted outer) (htoken : token.IsToken)
    (hspared : (b.completed? token.fragments.before).all (·.2 ≤ seen + 1) = true)
    (h : step g b outer token = .ok reading) :
    reading.Carries (if b.hides token.fragments.before then 0 else seen + 1)
      (sourceAll (b :: outer) ++ token.unparse) := by
  have hpush : sourceAll (b :: outer) ++ token.unparse =
      sourceAll outer ++ (b.source ++ token.unparse) := String.append_assoc
  have hsource : sourceAll outer ++ { b with items := token :: b.items }.source =
      sourceAll (b :: outer) ++ token.unparse := by
    rw [OpenBlock.source_cons, hpush]
  cases moves_of_step h with
  | hidden hhides =>
    rw [if_pos hhides]
    exact ⟨hplain, hfollows.skipped, hrooted.congr id, hsource⟩
  | @closed marker node hmem hcompletes hhides hcompleted hnode =>
    rw [hcompleted, Option.all_some, decide_eq_true_eq] at hspared
    have hspelled :=
      hfollows _ (OpenBlock.mem_watches_of_marker hmem) (Nat.le_of_succ_le_succ hspared)
    rw [hpush, OpenBlock.source_completed hspelled (htoken.unparse_eq ▸ hcompletes),
      ← OpenBlock.close_plain hplain hnode]
    exact carries_giveBack hrooted (List.ne_nil_of_mem hmem) node
  | @entered trigger inner location hmem hcompletes hhides hcompleted hinner =>
    rw [hcompleted, Option.all_some, decide_eq_true_eq] at hspared
    have hspelled :=
      hfollows _ (OpenBlock.mem_watches_of_trigger hmem) (Nat.le_of_succ_le_succ hspared)
    have hwaiting : { (b.watched token).reset with
        items := b.items.drop trigger.tokens }.Rooted outer :=
      hrooted.congr OpenBlock.markers_reset_watched
    refine ⟨hg.2 _ (Grammar.mem_of_rule? hinner), (OpenBlock.idle_new _ _ _).follows,
      ⟨hplain, OpenBlock.idle_reset, hwaiting⟩, ?_⟩
    rw [hpush, OpenBlock.source_completed hspelled (htoken.unparse_eq ▸ hcompletes),
      ← String.append_assoc]
    exact congrArg (_ ++ ·) OpenBlock.source_new
  | seen hhides =>
    rw [hhides]
    exact ⟨hplain, hfollows.watched htoken, hrooted.congr OpenBlock.markers_watched, hsource⟩

/-- Reading on over several tokens carries their text, as long as none is taken for a marker that a
skip has hidden. -/
theorem Carries.foldlM (hg : g.Plain) {tokens after : List Node}
    (htokens : ∀ t ∈ tokens, t.IsToken) (hreading : reading.Carries seen text)
    (hspared : reading.spares g seen (tokens ++ after) = true) {later : Reading}
    (h : tokens.foldlM (next g) reading = .ok later) :
    ∃ seen, later.Carries seen (text ++ unparseAll tokens) ∧ later.spares g seen after = true := by
  induction tokens generalizing reading seen text with
  | nil =>
    cases h
    rw [Node.unparseAll_nil, String.append_empty]
    exact ⟨seen, hreading, hspared⟩
  | cons token tokens ih =>
    rw [List.foldlM_cons] at h
    obtain ⟨middle, hmiddle, hrest⟩ := bind_eq_ok.mp h
    obtain ⟨htoken, htokens⟩ := List.forall_mem_cons.mp htokens
    rw [Node.unparseAll_cons, ← String.append_assoc]
    cases reading with
    | inside b outer =>
      obtain ⟨hplain, hfollows, hrooted, rfl⟩ := hreading
      unfold next at hmiddle
      dsimp only at hmiddle
      rw [List.cons_append, spares, hmiddle, Bool.and_eq_true] at hspared
      have hmiddle := carries_step hg hplain hfollows hrooted htoken hspared.1 hmiddle
      exact ih htokens hmiddle hspared.2 hrest
    | finished tree => exact hreading.elim

/-- At the end of the input, the tree holds the text that was carried. -/
theorem Carries.closeAll (h : (inside b outer).Carries seen text) {tree : Node}
    (htree : closeAll b outer = .ok tree) : tree.unparse = text := by
  induction outer generalizing b seen text with
  | nil =>
    obtain ⟨hplain, -, -, rfl⟩ := h
    obtain ⟨-, node, hnode, htree⟩ := closeAll_eq_ok htree
    cases htree
    rw [OpenBlock.close_plain hplain hnode, String.append_empty]
    exact String.empty_append.symm
  | cons parent outer ih =>
    obtain ⟨hplain, -, ⟨hparent, hidle, hrooted⟩, rfl⟩ := h
    obtain ⟨-, node, hnode, htree⟩ := closeAll_eq_ok htree
    have hsource : sourceAll (b :: parent :: outer) =
        sourceAll (parent :: outer) ++ node.unparse := by
      rw [OpenBlock.close_plain hplain hnode, String.append_empty]
      rfl
    rw [hsource]
    exact ih (carries_push 0 hparent hidle hrooted node) htree

end Reading

namespace Grammar
variable {g : Grammar} {tokens : List Node} {start : Reading}

/-- Somewhere in a stream of tokens, some are taken out of a block for a marker that the last of
them completes. -/
def Takes (g : Grammar) (tokens : List Node) (marker : String) (taken : List Node) : Prop :=
  ∃ start before token after b outer spanned, g.start? tokens = some start ∧
    tokens.takeWhile (·.kind != .endOfInput) = before ++ token :: after ∧
    before.foldlM (Reading.next g) start = .ok (.inside b outer) ∧
    b.completed? token.fragments.before = some (marker, spanned) ∧
    taken = ((token :: b.items).take spanned).reverse

theorem start?_eq {rule : Rule} (hrule : g.rule? g.toplevel = some rule) (tokens : List Node) :
    g.start? tokens =
      some (.inside (.new rule "" ((tokens.head?.map (·.location)).getD .unknown)) []) :=
  congrArg (Option.map _) hrule

theorem Plain.carries_start (hg : g.Plain) (hstart : g.start? tokens = some start) :
    start.Carries 0 "" := by
  obtain ⟨rule, hrule, rfl⟩ := Option.map_eq_some_iff.mp hstart
  have hrooted :
      (OpenBlock.new rule "" ((tokens.head?.map (·.location)).getD .unknown)).Rooted [] :=
    List.map_eq_nil_iff.mpr (hg.1 rule hrule)
  exact ⟨hg.2 _ (mem_of_rule? hrule), (OpenBlock.idle_new _ _ _).follows, hrooted,
    String.empty_append.trans OpenBlock.source_new⟩

end Grammar

namespace Grammar.Plain
variable {g : Grammar} (hg : g.Plain) {text file : String}
  (hspared : g.spares (tokenize text file) = true)
include hg hspared

theorem unparse_of_ok {tree : Node} (htree : parseWith g text file = .ok tree) :
    tree.unparse = text := by
  obtain ⟨tokens, htokens, hall, htext⟩ := takeWhile_tokenize text file
  obtain ⟨rule, reading, hrule, hreading, hfinish⟩ := Grammar.parse_eq_ok htree
  have hstart := Grammar.start?_eq hrule (tokenize text file)
  unfold Grammar.spares at hspared
  rw [hstart, Option.all_some, htokens, ← List.append_nil tokens] at hspared
  rw [htokens] at hreading
  obtain ⟨seen, hcarries, -⟩ := (hg.carries_start hstart).foldlM hg hall hspared hreading
  rw [String.empty_append, htext] at hcarries
  cases reading with
  | inside b outer => exact hcarries.closeAll hfinish
  | finished tree => exact hcarries.elim

theorem spelled_of_takes {marker : String} {taken : List Node}
    (htakes : g.Takes (tokenize text file) marker taken) : unparseAll taken = marker := by
  obtain ⟨start, before, token, after, b, outer, spanned, hstart, hsplit, hbefore, hcompleted,
    rfl⟩ := htakes
  obtain ⟨tokens, htokens, hall, -⟩ := takeWhile_tokenize text file
  unfold Grammar.spares at hspared
  rw [hstart, Option.all_some, hsplit] at hspared
  have hall : ∀ t ∈ before ++ token :: after, t.IsToken := hsplit ▸ htokens ▸ hall
  rw [List.forall_mem_append, List.forall_mem_cons] at hall
  obtain ⟨hbefores, htoken, -⟩ := hall
  obtain ⟨seen, ⟨-, hfollows, -, -⟩, hspared⟩ :=
    (hg.carries_start hstart).foldlM hg hbefores hspared hbefore
  unfold Reading.spares at hspared
  rw [hcompleted, Bool.and_eq_true, Option.all_some, decide_eq_true_eq] at hspared
  exact hfollows.spelled htoken hcompleted hspared.1

end Grammar.Plain

/-- Under rules for blocks and comments, a tree is written back as the text that it was read from
and the tokens taken for a marker spell it, unless a skip has hidden one of those tokens from it. -/
theorem unparse_of_spares {g : Grammar} (hg : g.Plain) {text file : String}
    (hspared : g.spares (tokenize text file) = true) :
    (∀ tree, parseWith g text file = .ok tree → tree.unparse = text) ∧
      ∀ marker taken, g.Takes (tokenize text file) marker taken → unparseAll taken = marker :=
  ⟨fun _ => hg.unparse_of_ok hspared, fun _ _ => hg.spelled_of_takes hspared⟩

/-- Blocks between single and double angle brackets, in which one text is skipped. -/
def Grammar.angled (skip : String) : Grammar where
  toplevel := "top"
  rules :=
    [("top", ⟨.toplevelBlock, .block, [.endOfInput], [("<", "angle")], []⟩),
      ("angle", ⟨.squareBlock, .block, [.marker ">>"], [], [skip]⟩)]

theorem unparse_of_spares_angled :
    (Grammar.angled "\\>").Plain ∧
      (Grammar.angled "\\>").spares (tokenize "a <b\\>>c>> d" "main") = true ∧
      ∃ tree, parseWith (.angled "\\>") "a <b\\>>c>> d" "main" = .ok tree ∧
        tree.unparse = "a <b\\>>c>> d" := by
  have hplain : (Grammar.angled "\\>").Plain := by decide +kernel
  have hspares : (Grammar.angled "\\>").spares (tokenize "a <b\\>>c>> d" "main") = true := by
    decide +kernel
  have hok : (parseWith (.angled "\\>") "a <b\\>>c>> d" "main").isOk = true := by decide +kernel
  cases h : parseWith (.angled "\\>") "a <b\\>>c>> d" "main" with
  | error e =>
    rw [h] at hok
    cases hok
  | ok tree => exact ⟨hplain, hspares, tree, rfl, (unparse_of_spares hplain hspares).1 tree h⟩

/-- A skip that completes inside an end marker is taken for a part of it. -/
example : ((parseWith (.angled "+") "<>+>" "main").map Node.unparse).toOption = some "<>>>" := by
  decide +kernel

end Homoicon
