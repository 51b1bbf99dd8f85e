import Homoicon.Grammar.Reading
import Homoicon.Proofs.Reading.Assembly
import Homoicon.Proofs.Reading.Watch

/-! Grammars whose blocks keep their text, and what holds of their open blocks. -/
namespace Homoicon
open Node (unparseAll)

/-- A marker that is a backslash and one character. -/
def IsEscape (marker : String) : Prop := ∃ c, marker.toList = ['\\', c]

theorem isEscape_iff {marker : String} :
    marker.toList.head? = some '\\' ∧ marker.toList.length = 2 ↔ IsEscape marker := by
  unfold IsEscape
  generalize marker.toList = chars
  constructor
  · intro h
    match chars, h with
    | [a, c], h => exact ⟨c, by rw [Option.some.inj h.1]⟩
  · intro h
    obtain ⟨c, rfl⟩ := h
    exact ⟨rfl, rfl⟩

instance (marker : String) : Decidable (IsEscape marker) := decidable_of_iff _ isEscape_iff

/-- A rule under which the blocks that `opener` begins keep their text. Strings are written with one
quote twice, so nothing but the opener may end them. What a rule's own function makes of a block
need not hold its text. What a skip hides is hidden for good only if
markers do not build up over several tokens. In an interpolated string a skip is a backslash and one
character, the triggers have to be among these, and only blocks of code may stand in it. -/
def Rule.Lossless (g : Grammar) (opener : String) (rule : Rule) : Prop :=
  rule.assembly.isCustom = false ∧ (rule.assembly = .block → rule.kind ≠ .map) ∧
    (rule.assembly = .raw ∨ rule.assembly = .interpolated →
      ∀ terminator ∈ rule.terminators, terminator = .marker opener) ∧
    (rule.skips ≠ [] → (∀ marker ∈ rule.markers, marker.length ≤ 1) ∧
      ∀ trigger ∈ rule.triggers, trigger.1.length ≤ 1) ∧
    (rule.assembly = .interpolated →
      (∀ skip ∈ rule.skips, IsEscape skip) ∧
        ∀ trigger ∈ rule.triggers, "\\" ++ trigger.1 ∈ rule.skips ∧
          ∀ inner ∈ g.rule? trigger.2, inner.assembly = .block ∧ inner.kind.isBlock = true)

instance (g : Grammar) (opener : String) (rule : Rule) : Decidable (rule.Lossless g opener) :=
  inferInstanceAs (Decidable (_ ∧ _))

def Grammar.Lossless (g : Grammar) : Prop :=
  (∀ rule ∈ g.rule? g.toplevel, rule.markers = [] ∧ rule.Lossless g "") ∧
    ∀ named ∈ g.rules, ∀ trigger ∈ named.2.triggers, ∀ inner ∈ g.rule? trigger.2,
      inner.Lossless g trigger.1

instance (g : Grammar) : Decidable g.Lossless := inferInstanceAs (Decidable (_ ∧ _))

theorem Grammar.standard_lossless : Grammar.standard.Lossless := by
  decide +kernel

namespace Grammar
variable {g : Grammar} {name : String} {rule inner : Rule}

theorem mem_of_rule? (h : g.rule? name = some rule) : (name, rule) ∈ g.rules := by
  obtain ⟨before, after, hrules, -⟩ := List.lookup_eq_some_iff.mp h
  rw [hrules]
  exact List.mem_append_right _ (.head _)

end Grammar

namespace Watch
variable {α : Type} {ws : List (Watch α)} {items : List Node} {token : Node} {prompt : Prop}

/-- Watches that know the latest items. Those that have to be `prompt` know of none. -/
structure Track (items : List Node) (prompt : Prop) (ws : List (Watch α)) : Prop where
  spelled : ∀ w ∈ ws, w.Spelled items
  prompt : prompt → ∀ w ∈ ws, w.Idle ∧ w.marker.length ≤ 1

theorem Track.of_idle (h : ∀ w ∈ ws, w.Idle) (hmarker : prompt → ∀ w ∈ ws, w.marker.length ≤ 1) :
    Track items prompt ws :=
  ⟨fun w hw => (h w hw).spelled, fun hp w hw => ⟨h w hw, hmarker hp w hw⟩⟩

theorem Track.reset (h : Track items prompt ws) (others : List Node) :
    Track others prompt (ws.map Watch.reset) := by
  refine .of_idle ?_ fun hp => ?_
  all_goals
    intro w hw
    obtain ⟨v, hv, rfl⟩ := List.mem_map.mp hw
  · exact idle_reset
  · exact (h.prompt hp v hv).2

theorem Track.advance (h : Track items prompt ws) {text : String} (htoken : token.unparse = text) :
    Track (token :: items) prompt (ws.map (·.advance text)) := by
  refine ⟨?_, fun hp => ?_⟩
  all_goals
    intro w hw
    obtain ⟨v, hv, rfl⟩ := List.mem_map.mp hw
  · exact (h.spelled v hv).advance htoken
  · have hmarker := (h.prompt hp v hv).2
    refine ⟨idle_advance hmarker, ?_⟩
    rwa [marker_advance]

/-- The watch of an escape has seen its backslash exactly where one is pending. -/
def FollowsEscape (pending : Bool) (w : Watch α) : Prop := w.chars = if pending then 1 else 0

theorem partly_iff {w : Watch α} {text : String} :
    (w.continues text && !w.completes text) = true ↔
      text ≠ "" ∧ text.toList <+: w.marker.toList.drop w.chars ∧
        text.toList ≠ w.marker.toList.drop w.chars := by
  rw [Bool.and_eq_true, Bool.not_eq_true', Bool.eq_false_iff, Ne, completes_iff, continues_iff]
  constructor
  · rintro ⟨⟨hne, hprefix⟩, hnot⟩
    exact ⟨hne, hprefix, fun h => hnot ⟨hne, h⟩⟩
  · rintro ⟨hne, hprefix, hnot⟩
    exact ⟨⟨hne, hprefix⟩, fun h => hnot h.2⟩

theorem FollowsEscape.advance {w : Watch α} {pending : Bool} {c : Char} (text : String)
    (h : w.FollowsEscape pending) (hmarker : w.marker.toList = ['\\', c]) :
    (w.advance text).FollowsEscape (!pending && text == "\\") := by
  -- only a backslash where none is pending is a part of the marker
  have hpartly : (w.continues text && !w.completes text) = (!pending && text == "\\") := by
    rw [Bool.eq_iff_iff, partly_iff, hmarker, h, Bool.and_eq_true, beq_iff_eq, Bool.not_eq_true']
    constructor
    · rintro ⟨hne, hprefix, hnot⟩
      have hnil : text.toList ≠ [] := fun h => hne (String.toList_eq_nil_iff.mp h)
      cases pending with
      | true =>
        rcases List.prefix_cons_iff.mp hprefix with h | ⟨rest, h, hrest⟩
        · exact absurd h hnil
        · exact absurd (h.trans (by rw [List.prefix_nil.mp hrest]; rfl)) hnot
      | false =>
        rcases List.prefix_cons_iff.mp hprefix with h | ⟨rest, h, hrest⟩
        · exact absurd h hnil
        · rcases List.prefix_cons_iff.mp hrest with hr | ⟨rest', hr, hrest'⟩
          · exact ⟨rfl, String.toList_inj.mp (h.trans (by rw [hr]; rfl))⟩
          · exact absurd (h.trans (by rw [hr, List.prefix_nil.mp hrest']; rfl)) hnot
    · rintro ⟨rfl, rfl⟩
      exact ⟨by decide, ⟨[c], rfl⟩, by simp⟩
  unfold FollowsEscape Watch.advance at *
  rw [hpartly]
  cases hlast : !pending && text == "\\" with
  | false => rfl
  | true =>
    rw [Bool.and_eq_true, Bool.not_eq_true', beq_iff_eq] at hlast
    obtain ⟨rfl, rfl⟩ := hlast
    simp only [if_true, h]
    rfl

end Watch

/-- Whether blocks of a rule may stand in a block of another. -/
def Rule.Fits (outer inner : Rule) : Prop :=
  outer.assembly = .interpolated → inner.assembly = .block ∧ inner.kind.isBlock = true

namespace OpenBlock
variable {g : Grammar} {b : OpenBlock}

def source (b : OpenBlock) : String := b.opener ++ unparseAll b.items.reverse

/-- What holds of a block that is being read: it watches for the markers of its rule, each watch
knows the latest items, and those of the skips tell whether a backslash is pending. -/
structure Sound (g : Grammar) (b : OpenBlock) : Prop where
  known : ∃ name, (name, b.rule) ∈ g.rules
  lossless : b.rule.Lossless g b.opener
  skips : b.skips.map (·.marker) = b.rule.skips
  triggers : b.triggers.map (fun w => (w.marker, w.meaning)) = b.rule.triggers
  markers : b.markers.map (·.marker) = b.rule.markers
  track_triggers : Watch.Track b.items (b.rule.skips ≠ []) b.triggers
  track_markers : Watch.Track b.items (b.rule.skips ≠ []) b.markers
  escapes : b.rule.assembly = .interpolated →
    ∃ pending, Escapes false b.items.reverse pending ∧ ∀ w ∈ b.skips, w.FollowsEscape pending

/-- What holds of a block around the one that is being read: none of its watches has seen anything,
and no backslash is pending. -/
structure Waiting (g : Grammar) (b : OpenBlock) (inner : Rule) : Prop where
  sound : b.Sound g
  fits : b.rule.Fits inner
  triggers_idle : ∀ w ∈ b.triggers, w.Idle
  markers_idle : ∀ w ∈ b.markers, w.Idle
  no_escape : b.rule.assembly = .interpolated →
    Escapes false b.items.reverse false ∧ ∀ w ∈ b.skips, w.FollowsEscape false

end OpenBlock
end Homoicon
