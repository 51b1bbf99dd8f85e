import Homoicon.Grammar.Watch
import Homoicon.Proofs.Reading.Tokens

/-! What watches know of the text before them. -/
namespace Homoicon.Watch
open Node (unparseAll)

variable {α : Type} {w : Watch α} {items : List Node} {token : Node} {text : String}

/-- The latest items spell as much of the marker as has been seen. Items stand latest first. -/
def Spelled (items : List Node) (w : Watch α) : Prop :=
  (unparseAll (items.take w.tokens).reverse).toList = w.marker.toList.take w.chars

def Idle (w : Watch α) : Prop := w.tokens = 0 ∧ w.chars = 0

@[simp] theorem idle_reset : w.reset.Idle := ⟨rfl, rfl⟩

@[simp] theorem marker_reset : w.reset.marker = w.marker := rfl

@[simp] theorem meaning_reset : w.reset.meaning = w.meaning := rfl

@[simp] theorem marker_advance : (w.advance text).marker = w.marker := by
  unfold advance
  split <;> rfl

@[simp] theorem meaning_advance : (w.advance text).meaning = w.meaning := by
  unfold advance
  split <;> rfl

theorem Idle.spelled (h : w.Idle) : w.Spelled items := by
  unfold Spelled
  rw [h.1, h.2]
  simp [Node.unparseAll_nil]

theorem continues_iff :
    w.continues text = true ↔ text ≠ "" ∧ text.toList <+: w.marker.toList.drop w.chars := by
  simp [continues]

theorem completes_iff :
    w.completes text = true ↔
      text ≠ "" ∧ text.toList = w.marker.toList.drop w.chars := by
  unfold completes
  rw [Bool.and_eq_true, continues_iff, decide_eq_true_eq]
  constructor
  · rintro ⟨⟨hne, hprefix⟩, hlen⟩
    refine ⟨hne, hprefix.eq_of_length_le ?_⟩
    simp only [List.length_drop, String.length_toList]
    omega
  · rintro ⟨hne, heq⟩
    refine ⟨⟨hne, heq ▸ List.prefix_refl _⟩, ?_⟩
    have hlen := congrArg List.length heq
    simp only [List.length_drop, String.length_toList] at hlen
    omega

/-- A marker of at most one character is never seen in part. -/
theorem idle_advance (hmarker : w.marker.length ≤ 1) : (w.advance text).Idle := by
  unfold Watch.advance
  split
  · next hgo =>
    rw [Bool.and_eq_true, Bool.not_eq_true', continues_iff] at hgo
    obtain ⟨⟨hne, hprefix⟩, hmore⟩ := hgo
    have hpos : text.length ≠ 0 := fun h => hne (String.length_eq_zero_iff.mp h)
    have hcomplete : w.completes text = true := by
      unfold completes
      rw [Bool.and_eq_true, continues_iff, decide_eq_true_eq]
      exact ⟨⟨hne, hprefix⟩, by omega⟩
    rw [hcomplete] at hmore
    cases hmore
  · exact idle_reset

/-- One more token is one more of the latest items. -/
theorem Spelled.advance (h : w.Spelled items) (htoken : token.unparse = text) :
    (w.advance text).Spelled (token :: items) := by
  unfold Watch.advance
  split
  · next hgo =>
    rw [Bool.and_eq_true, continues_iff] at hgo
    obtain ⟨⟨-, hprefix⟩, -⟩ := hgo
    have htake : text.toList = (w.marker.toList.drop w.chars).take text.length := by
      rw [← String.length_toList]
      exact List.prefix_iff_eq_take.mp hprefix
    unfold Spelled at *
    dsimp only
    rw [List.take_succ_cons, Node.unparseAll_reverse_cons, String.toList_append, h, htoken,
      List.take_add, ← htake]
  · exact idle_reset.spelled

/-- The items that a marker began with and the token that completes it spell the marker. -/
theorem Spelled.of_completes (h : w.Spelled items) (hc : w.completes text = true) :
    unparseAll (items.take w.tokens).reverse ++ text = w.marker := by
  obtain ⟨-, htext⟩ := completes_iff.mp hc
  apply String.toList_inj.mp
  rw [String.toList_append, h, htext, List.take_append_drop]

theorem firstComplete_eq_some {watches : List (Watch α)} {spanned : Nat}
    (h : firstComplete watches text = some (w, spanned)) :
    w ∈ watches ∧ w.completes text = true ∧ spanned = w.tokens + 1 := by
  obtain ⟨v, hv, heq⟩ := Option.map_eq_some_iff.mp h
  cases heq
  have hc : w.completes text = true := by simpa using List.find?_some hv
  exact ⟨List.mem_of_find?_eq_some hv, hc, rfl⟩

end Homoicon.Watch
