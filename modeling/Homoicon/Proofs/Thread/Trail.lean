import Homoicon.Proofs.Thread.Branch

/-! Trails of a thread through a source, one for each way in which its branches can be taken. -/
namespace Homoicon
open Relation (ReflTransGen)

/-- The items that the frames around the innermost one have come to. -/
def Thread.position (t : Thread) : List Nat := t.outer.map Frame.index

def Shape.isRepetition : Shape → Bool
  | repetition _ => true
  | _ => false

/-- A thread that has come to an offset. The trail knows the lazy repetitions that were left since
the last node, by their positions, and whether one of them was entered again. -/
structure Trail where
  offset : Nat
  thread : Thread
  left : List (List Nat)
  returned : Bool

namespace Trail

def seed (start pattern : Nat) (root : Frame) : Trail :=
  ⟨start, .seed start pattern root, [], false⟩

/-- On to a thread that takes the place of the present one. -/
def follow (x : Trail) (u : Thread) : Trail where
  offset := x.offset
  thread := u
  left :=
    if x.thread.top.shape = .repetition false ∧ u.outer.length < x.thread.outer.length then
      x.thread.position :: x.left
    else x.left
  returned := x.returned || (decide (x.thread.outer.length < u.outer.length) &&
    u.top.shape.isRepetition && x.left.contains u.position)

/-- On to a thread that has consumed the node at the offset. -/
def past (x : Trail) (u : Thread) : Trail := ⟨x.offset + 1, u, [], x.returned⟩

def next (source : List Node) (x : Trail) : List Trail :=
  if x.thread.awaitsInput then
    match source[x.offset]?.map x.thread.consume with
    | some (.ok (some u)) => [x.past u]
    | _ => []
  else
    match x.thread.move x.offset (x.offset == source.length) with
    | .ok (.threads next) => next.map x.follow
    | _ => []

def after (source : List Node) : Trail → List Nat → Option Trail
  | x, [] => some x
  | x, k :: route => (x.next source)[k]?.bind fun y => y.after source route

variable {source : List Node} {x y z : Trail} {k : Nat} {route : List Nat}

theorem follow_within {u : Thread} (h : u.outer.length = x.thread.outer.length) :
    x.follow u = { x with thread := u } := by
  simp [follow, h]

theorem follow_in {u : Thread} (h : x.thread.outer.length < u.outer.length) :
    x.follow u = { x with
      thread := u
      returned := x.returned || (u.top.shape.isRepetition && x.left.contains u.position) } := by
  simp [follow, h, Nat.lt_asymm h]

theorem follow_out {u : Thread} (h : u.outer.length < x.thread.outer.length) :
    x.follow u = { x with
      thread := u
      left :=
        if x.thread.top.shape = .repetition false then x.thread.position :: x.left
        else x.left } := by
  simp [follow, h, Nat.lt_asymm h]

/-- How a trail goes on: by a branch without input, or past a node. -/
inductive Goes (source : List Node) (x : Trail) : Nat → Trail → Prop
  | move {k : Nat} {u : Thread} (h : x.thread.Branch x.offset (x.offset == source.length) k u) :
      Goes source x k (x.follow u)
  | consume {input : Node} {u : Thread} (hi : source[x.offset]? = some input)
      (h : x.thread.consume input = .ok (some u)) : Goes source x 0 (x.past u)

theorem next_of_awaitsInput (h : x.thread.awaitsInput = true) :
    x.next source =
      match source[x.offset]?.map x.thread.consume with
      | some (.ok (some u)) => [x.past u]
      | _ => [] := if_pos h

theorem next_of_move {next : List Thread} (hw : x.thread.awaitsInput = false)
    (h : x.thread.move x.offset (x.offset == source.length) = .ok (.threads next)) :
    x.next source = next.map x.follow := by
  simp [Trail.next, hw, h]

theorem getElem?_next : (x.next source)[k]? = some y ↔ x.Goes source k y := by
  constructor
  · intro h
    cases hw : x.thread.awaitsInput with
    | true =>
      rw [next_of_awaitsInput hw] at h
      split at h
      · next u hu =>
        obtain ⟨input, hinput, hconsume⟩ := Option.map_eq_some_iff.mp hu
        obtain ⟨hk, rfl⟩ := List.getElem?_eq_some_iff.mp h
        obtain rfl : k = 0 := by simpa using hk
        exact .consume hinput hconsume
      · cases h
    | false =>
      simp only [Trail.next, hw, Bool.false_eq_true, if_false] at h
      split at h
      · next next hnext =>
        rw [List.getElem?_map] at h
        obtain ⟨u, hu, rfl⟩ := Option.map_eq_some_iff.mp h
        exact .move ⟨hw, next, hnext, hu⟩
      · cases h
  · intro h
    cases h with
    | move h =>
      obtain ⟨hw, next, hnext, hu⟩ := h
      rw [next_of_move hw hnext, List.getElem?_map, hu]
      rfl
    | consume hi h =>
      obtain ⟨condition, hcur, -⟩ := Thread.consume_eq_some h
      rw [next_of_awaitsInput (Thread.awaitsInput_iff.mpr ⟨condition, hcur⟩), hi,
        Option.map_some, h]
      rfl

theorem next_of_end {condition : Test} (hcur : x.thread.top.current = some (.test condition))
    (hi : source[x.offset]? = none) : x.next source = [] := by
  rw [next_of_awaitsInput (Thread.awaitsInput_iff.mpr ⟨condition, hcur⟩), hi]
  rfl

theorem next_of_test {condition : Test} {input : Node} {passed : Bool}
    (hcur : x.thread.top.current = some (.test condition)) (hi : source[x.offset]? = some input)
    (hpass : condition.passes input = .ok passed) :
    x.next source = if passed then [x.past x.thread.pass] else [] := by
  have hconsume : x.thread.consume input = .ok (if passed then some x.thread.pass else none) := by
    simp [Thread.consume, hcur, hpass, Except.map]
  rw [next_of_awaitsInput (Thread.awaitsInput_iff.mpr ⟨condition, hcur⟩), hi, Option.map_some,
    hconsume]
  cases passed <;> rfl

theorem next_of_done (h : x.thread.Done) : x.next source = [] := by
  simp [Trail.next, h.awaitsInput_eq, Thread.move_eq_matched_iff.mpr h]

namespace Goes

theorem step (h : x.Goes source k y) :
    Thread.Step source (x.offset, x.thread) (y.offset, y.thread) := by
  cases h with
  | move h => exact .move h.follows
  | consume hi h => exact .consume hi h

theorem offset_le (h : x.Goes source k y) : x.offset ≤ y.offset := by
  cases h with
  | move h => exact Nat.le_refl _
  | consume hi h => exact Nat.le_succ _

theorem returned_of (h : x.Goes source k y) (hy : y.returned = false) : x.returned = false := by
  cases h with
  | move h => exact (Bool.or_eq_false_iff.mp hy).1
  | consume hi h => exact hy

theorem left_subset (h : x.Goes source k y) (ho : y.offset = x.offset) : x.left ⊆ y.left := by
  cases h with
  | move h =>
    unfold follow
    split
    · exact List.subset_cons_self _ _
    · exact List.Subset.refl _
  | consume hi h => exact absurd ho (Nat.succ_ne_self _)

end Goes

theorem after_append (r r' : List Nat) :
    x.after source (r ++ r') = (x.after source r).bind fun y => y.after source r' := by
  induction r generalizing x with
  | nil => rfl
  | cons k r ih => simp only [List.cons_append, after, Option.bind_assoc, ih]

theorem after_singleton : x.after source [k] = (x.next source)[k]? := by
  simp [after]

theorem after_cons_eq_some :
    x.after source (k :: route) = some z ↔
      ∃ y, x.Goes source k y ∧ y.after source route = some z := by
  simp only [after, Option.bind_eq_some_iff, getElem?_next]

theorem offset_le_of_after (h : x.after source route = some y) : x.offset ≤ y.offset := by
  induction route generalizing x with
  | nil => exact Nat.le_of_eq (congrArg Trail.offset (Option.some.inj h))
  | cons k route ih =>
    obtain ⟨z, hz, hy⟩ := after_cons_eq_some.mp h
    exact Nat.le_trans hz.offset_le (ih hy)

/-- Between two points of a trail at one offset there are moves only, and what was left stays left.
-/
theorem walk_of_after (h : x.after source route = some y) (ho : y.offset = x.offset) :
    ReflTransGen (Thread.Follows x.offset (x.offset == source.length)) x.thread y.thread ∧
      x.left ⊆ y.left := by
  induction route generalizing x with
  | nil =>
    cases Option.some.inj h
    exact ⟨.refl, List.Subset.refl _⟩
  | cons k route ih =>
    obtain ⟨z, hz, hy⟩ := after_cons_eq_some.mp h
    have hzx : z.offset = x.offset :=
      Nat.le_antisymm (ho ▸ offset_le_of_after hy) hz.offset_le
    obtain ⟨hwalk, hleft⟩ := ih hy (ho.trans hzx.symm)
    rw [hzx] at hwalk
    refine ⟨.head ?_ hwalk, List.Subset.trans (hz.left_subset hzx) hleft⟩
    cases hz with
    | move h => exact h.follows
    | consume hi h => exact absurd hzx (Nat.succ_ne_self _)

end Trail
end Homoicon
