import Homoicon.Proofs.Pattern.Productive
import Homoicon.Proofs.Thread.Step

/-! Threads of productive patterns come to rest without input, and do not come by a place twice. -/
namespace Homoicon
open Pattern (nullableAll weightAll)
open Relation (ReflTransGen TransGen)

namespace Frame
variable {root p : Pattern} {f : Frame} {outer : List Frame}

theorem Within.productive (h : f.Within root outer) (hroot : root.Productive) :
    f.group.Productive :=
  h.inherit (fun _ _ _ hgroup => Pattern.productiveAll_iff.mp hgroup.2) hroot

def passable (f : Frame) : Bool :=
  match f.shape with
  | .choice => (f.current.map Pattern.nullable).getD true
  | _ => nullableAll (f.items.drop f.index)

theorem passable_of_end (h : f.current = none) : f.passable = true := by
  unfold passable
  rw [h, drop_index_of_end h]
  cases f.shape <;> rfl

theorem passable_of_current (h : f.current = some p) :
    f.passable = (p.nullable && f.advance.passable) := by
  by_cases hs : f.shape = .choice
  · have hend : f.advance.current = none := by
      rw [advance_of_choice hs]
      exact List.getElem?_eq_none (Nat.le_refl _)
    rw [passable_of_end hend, Bool.and_true]
    unfold passable
    rw [hs, h]
    rfl
  · have hadvance := advance_of_ne_choice hs
    have hdrop : ∀ g : Frame, g.shape ≠ .choice →
        g.passable = nullableAll (g.items.drop g.index) := by
      intro g hg
      unfold passable
      split
      · next hc => exact absurd hc hg
      · rfl
    rw [hadvance, hdrop f hs, hdrop { f with index := f.index + 1 } hs,
      drop_index_of_current h]
    rfl

/-- A group that can be gone through without a node can be passed without one. -/
theorem nullable_of_passable {mark : UInt64} {shape : Shape} {items : List Pattern} {k : Nat}
    (hk : shape ≠ .choice ∧ k = 0 ∨ shape = .choice ∧ k < items.length)
    (h : passable ⟨mark, shape, items, k⟩ = true) :
    (Pattern.group mark shape items).nullable = true := by
  rcases hk with ⟨hne, rfl⟩ | ⟨rfl, hk⟩
  · cases shape with
    | choice => exact absurd rfl hne
    | optional greedy => rfl
    | _ => exact h
  · have hcur : current ⟨mark, .choice, items, k⟩ = some items[k] := List.getElem?_eq_getElem hk
    simp only [passable, hcur] at h
    exact Pattern.nullableAny_of_mem (List.getElem_mem hk) h

theorem passable_restart {greedy : Bool} (h : f.group.Productive)
    (hs : f.shape = .repetition greedy) : passable { f with index := 0 } = false := by
  have hbody := h.1
  unfold passable
  simp only [hs] at hbody ⊢
  exact hbody

theorem weightAll_advance (h : f.current = some p) :
    weightAll (f.advance.items.drop f.advance.index) + p.weight ≤
      weightAll (f.items.drop f.index) := by
  rw [drop_index_of_current h]
  unfold advance
  cases f.shape with
  | choice =>
    simp only [List.drop_length, weightAll]
    omega
  | _ =>
    simp only [weightAll]
    omega

/-- A bound on the moves that are left without a node: to the end of the group, and if it can be
come to, out of it or around it once more. -/
def rank (f : Frame) : List Frame → Nat
  | [] => weightAll (f.items.drop f.index)
  | parent :: outer =>
    weightAll (f.items.drop f.index) +
      if f.passable then max (rank parent.advance outer) (weightAll f.items) + 1 else 0

theorem rank_cons (f parent : Frame) (outer : List Frame) :
    f.rank (parent :: outer) = weightAll (f.items.drop f.index) +
      if f.passable then max (parent.advance.rank outer) (weightAll f.items) + 1 else 0 := rfl

theorem weightAll_le_rank (f : Frame) (outer : List Frame) :
    weightAll (f.items.drop f.index) ≤ f.rank outer := by
  cases outer with
  | nil => exact Nat.le_refl _
  | cons parent outer => exact Nat.le_add_right _ _

/-- Passing an item takes its weight off the rank. -/
theorem rank_advance (h : f.current = some p) (hp : p.nullable = true) (outer : List Frame) :
    f.advance.rank outer + p.weight ≤ f.rank outer := by
  have hweight := weightAll_advance h
  cases outer with
  | nil => exact hweight
  | cons parent outer =>
    have hpass : f.passable = f.advance.passable := by rw [passable_of_current h, hp, Bool.true_and]
    have hitems : f.advance.items = f.items := (Pattern.group.inj (group_advance f)).2.2
    rw [rank_cons, rank_cons, hpass, hitems]
    rw [hitems] at hweight
    omega

theorem rank_enter {mark : UInt64} {shape : Shape} {items : List Pattern} {k : Nat}
    (h : f.current = some (.group mark shape items))
    (hk : shape ≠ .choice ∧ k = 0 ∨ shape = .choice ∧ k < items.length) :
    rank ⟨mark, shape, items, k⟩ (f :: outer) < f.rank outer := by
  have hdrop := Pattern.weightAll_drop_le items k
  have hgroup : (Pattern.group mark shape items).weight = 2 * weightAll items + 2 := by
    simp only [Pattern.weight]
  rw [rank_cons]
  split
  · next hpass =>
    have hadvance := rank_advance h (nullable_of_passable hk hpass) outer
    dsimp only at hdrop ⊢
    omega
  · have hle := weightAll_le_rank f outer
    have hweight := weightAll_advance h
    dsimp only at hdrop ⊢
    omega

end Frame

namespace Thread
variable {t u v : Thread} {index : Nat} {atEnd : Bool}

def rank (t : Thread) : Nat := t.top.rank t.outer

theorem rank_eq_of_place_eq (h : u.place = t.place) : u.rank = t.rank := by
  rw [eq_of_place_eq h]
  rfl

theorem Follows.rank_lt (h : t.Follows index atEnd u) (ht : t.top.group.Productive) :
    u.rank < t.rank := by
  unfold rank
  cases h with
  | @skip mark greedy items hcur =>
    have hadvance := Frame.rank_advance hcur rfl t.outer
    have hpos := Pattern.weight_pos (.group mark (.optional greedy) items)
    simp only [pass]
    omega
  | @anchor start hcur hs =>
    have hadvance := Frame.rank_advance hcur rfl t.outer
    have hpos := Pattern.weight_pos (.anchor start)
    simp only [pass]
    omega
  | enter hcur hk => exact Frame.rank_enter hcur hk
  | @leave parent outer hcur ho =>
    rw [ho, Frame.rank_cons, Frame.passable_of_end hcur, if_pos rfl]
    simp only [Thread.leave]
    omega
  | @restart greedy hcur ho hs =>
    obtain ⟨parent, outer, ho⟩ := List.exists_cons_of_ne_nil ho
    simp only [Thread.restart]
    rw [ho, Frame.rank_cons, Frame.rank_cons, Frame.passable_of_end hcur,
      Frame.passable_restart ht hs, if_pos rfl, if_neg Bool.false_ne_true, List.drop_zero]
    dsimp only
    omega

end Thread
end Homoicon
