import Homoicon.Proofs.Reading.Spared

/-! Grammars under which no skip hides a part of a marker. -/
namespace Homoicon

/-- A rule under which a skip hides no part of a marker: it has no skips, or its markers have one
character. -/
def Rule.Prompt (rule : Rule) : Prop :=
  rule.skips = [] ∨
    (∀ marker ∈ rule.markers, marker.length ≤ 1) ∧ ∀ trigger ∈ rule.triggers, trigger.1.length ≤ 1

instance (rule : Rule) : Decidable rule.Prompt := inferInstanceAs (Decidable (_ ∨ _ ∧ _))

theorem Watch.tokens_advance_le {α : Type} (w : Watch α) (text : String) :
    (w.advance text).tokens ≤ w.tokens + 1 := by
  unfold Watch.advance
  split
  · exact Nat.le_refl _
  · exact Nat.zero_le _

namespace OpenBlock
variable {b : OpenBlock} {seen : Nat} {token : Node}

/-- No watch goes back further than to the latest `seen` tokens. Where there are skips, none goes
back at all. -/
structure Prompt (seen : Nat) (b : OpenBlock) : Prop where
  skips : b.skips = [] ∨ ∀ w ∈ b.watches, w.Idle ∧ w.marker.length ≤ 1
  tokens : ∀ w ∈ b.watches, w.tokens ≤ seen

theorem prompt_new {rule : Rule} (hrule : rule.Prompt) (opener : String) (location : Location) :
    (new rule opener location).Prompt seen where
  skips := by
    refine hrule.imp (fun h => congrArg _ h) fun ⟨hmarkers, htriggers⟩ w hw => ?_
    refine ⟨idle_new _ _ _ w hw, ?_⟩
    rcases List.mem_append.mp hw with hw | hw
    · obtain ⟨marker, hmarker, rfl⟩ := List.mem_map.mp hw
      exact hmarkers marker hmarker
    · obtain ⟨v, hv, rfl⟩ := List.mem_map.mp hw
      obtain ⟨trigger, htrigger, rfl⟩ := List.mem_map.mp hv
      exact htriggers trigger htrigger
  tokens := fun w hw => (idle_new rule opener location w hw).1 ▸ Nat.zero_le seen

theorem Prompt.mono (h : b.Prompt 0) (seen : Nat) : b.Prompt seen :=
  ⟨h.skips, fun w hw => Nat.le_trans (h.tokens w hw) (Nat.zero_le seen)⟩

theorem Prompt.skipped (h : b.Prompt seen) (hhides : b.hides token.fragments.before = true) :
    (b.skipped token).Prompt 0 := by
  rcases h.skips with hskips | hidle
  · unfold hides at hhides
    rw [hskips] at hhides
    cases hhides
  · exact ⟨.inr hidle, fun w hw => Nat.le_of_eq (hidle w hw).1.1⟩

theorem Prompt.watched (h : b.Prompt seen) (token : Node) :
    (b.watched token).Prompt (seen + 1) := by
  have hwatch : ∀ w ∈ (b.watched token).watches, ∃ v ∈ b.watches,
      v.advance token.fragments.before = w := fun w hw => by
    rwa [watches_watched, List.mem_map] at hw
  constructor
  · refine h.skips.imp List.map_eq_nil_iff.mpr fun hidle w hw => ?_
    obtain ⟨v, hv, rfl⟩ := hwatch w hw
    have hmarker := (hidle v hv).2
    rw [Watch.marker_advance]
    exact ⟨Watch.idle_advance hmarker, hmarker⟩
  · intro w hw
    obtain ⟨v, hv, rfl⟩ := hwatch w hw
    exact Nat.le_trans (v.tokens_advance_le _) (Nat.succ_le_succ (h.tokens v hv))

theorem Prompt.reset (h : b.Prompt seen) : b.reset.Prompt 0 := by
  constructor
  · refine h.skips.imp List.map_eq_nil_iff.mpr fun hidle w hw => ⟨idle_reset w hw, ?_⟩
    rw [watches_reset] at hw
    obtain ⟨v, hv, rfl⟩ := List.mem_map.mp hw
    exact (hidle v hv).2
  · exact fun w hw => Nat.le_of_eq (idle_reset w hw).1

end OpenBlock

namespace Reading
variable {g : Grammar} {b : OpenBlock} {outer : List OpenBlock} {seen : Nat} {token : Node}
  {reading : Reading}

/-- No watch of the innermost block goes back further than to the latest `seen` tokens, and those of
the blocks around it have seen nothing. -/
def Prompt (seen : Nat) : Reading → Prop
  | inside b outer => b.Prompt seen ∧ ∀ parent ∈ outer, parent.Prompt 0
  | finished _ => True

theorem prompt_giveBack (houter : ∀ parent ∈ outer, parent.Prompt 0) (node : Node) :
    (giveBack node outer).Prompt seen := by
  cases outer with
  | nil => trivial
  | cons parent outer =>
    obtain ⟨hparent, houter⟩ := List.forall_mem_cons.mp houter
    have hmono := hparent.mono seen
    exact ⟨⟨hmono.skips, hmono.tokens⟩, houter⟩

theorem prompt_step (hg : ∀ named ∈ g.rules, named.2.Prompt) (hb : b.Prompt seen)
    (houter : ∀ parent ∈ outer, parent.Prompt 0) (h : step g b outer token = .ok reading) :
    reading.Prompt (if b.hides token.fragments.before then 0 else seen + 1) := by
  cases moves_of_step h with
  | hidden hhides =>
    rw [if_pos hhides]
    exact ⟨hb.skipped hhides, houter⟩
  | closed => exact prompt_giveBack houter _
  | entered hmem hcompletes hhides hcompleted hinner =>
    have hparent := (hb.watched token).reset
    exact ⟨OpenBlock.prompt_new (hg _ (Grammar.mem_of_rule? hinner)) _ _,
      List.forall_mem_cons.mpr ⟨⟨hparent.skips, hparent.tokens⟩, houter⟩⟩
  | seen hhides =>
    rw [hhides]
    exact ⟨hb.watched token, houter⟩

theorem Prompt.spares (hg : ∀ named ∈ g.rules, named.2.Prompt) (h : reading.Prompt seen)
    (tokens : List Node) : reading.spares g seen tokens = true := by
  induction tokens generalizing reading seen with
  | nil => cases reading <;> rfl
  | cons token tokens ih =>
    cases reading with
    | finished tree => rfl
    | inside b outer =>
      obtain ⟨hb, houter⟩ := h
      unfold Reading.spares
      rw [Bool.and_eq_true]
      constructor
      · refine (Option.all_eq_true _ _).mpr fun taken hcompleted => decide_eq_true ?_
        obtain ⟨w, hw, -, -, htokens⟩ := OpenBlock.exists_watch hcompleted
        rw [htokens]
        exact Nat.succ_le_succ (hb.tokens w hw)
      · split
        · next later hlater => exact ih (prompt_step hg hb houter hlater)
        · rfl

end Reading

/-- Under rules that are prompt, no token is taken for a marker that a skip has hidden, whatever the
tokens are. -/
theorem Grammar.spares_of_prompt {g : Grammar} (hg : ∀ named ∈ g.rules, named.2.Prompt)
    (tokens : List Node) : g.spares tokens = true := by
  unfold Grammar.spares
  refine (Option.all_eq_true _ _).mpr fun start hstart => ?_
  obtain ⟨rule, hrule, rfl⟩ := Option.map_eq_some_iff.mp hstart
  have hnew : ∀ location, Reading.Prompt 0 (.inside (.new rule "" location) []) := fun location =>
    ⟨OpenBlock.prompt_new (hg _ (mem_of_rule? hrule)) "" location, List.forall_mem_nil _⟩
  exact (hnew _).spares hg _

/-- Under prompt rules for blocks and comments, a tree is written back as the text that it was read
from, whatever the text is. -/
theorem unparse_of_prompt {g : Grammar} (hg : g.Plain) (hprompt : ∀ named ∈ g.rules, named.2.Prompt)
    {text file : String} {tree : Node} (h : parseWith g text file = .ok tree) :
    tree.unparse = text :=
  hg.unparse_of_ok (Grammar.spares_of_prompt hprompt _) h

end Homoicon
