import Homoicon.Proofs.Thread.Route
import Homoicon.Proofs.Thread.Trail

/-! The trails of a search by their addresses: the offset they begin at, their pattern and their
route. -/
namespace Homoicon.Search
open Relation (ReflTransGen)

variable {source : List Node} {roots : List Frame} {a b : List Nat} {k : Nat} {x y : Trail}

/-- The trail at an address. Its thread is the one that the search would have there if it never
merged any. -/
def trailAt (source : List Node) (roots : List Frame) : List Nat → Option Trail
  | start :: pattern :: route =>
    if start < source.length then
      roots[pattern]?.bind fun root => (Trail.seed start pattern root).after source route
    else none
  | _ => none

theorem trailAt_eq_some :
    trailAt source roots a = some x ↔ ∃ start pattern root route, a = start :: pattern :: route ∧
      start < source.length ∧ roots[pattern]? = some root ∧
      (Trail.seed start pattern root).after source route = some x := by
  constructor
  · intro h
    match a, h with
    | start :: pattern :: route, h =>
      obtain ⟨hs, h⟩ := Option.ite_none_right_eq_some.mp h
      obtain ⟨root, hroot, h⟩ := Option.bind_eq_some_iff.mp h
      exact ⟨start, pattern, root, route, rfl, hs, hroot, h⟩
  · rintro ⟨start, pattern, root, route, rfl, hs, hroot, h⟩
    simp [trailAt, hs, hroot, h]

theorem trailAt_append (h : trailAt source roots a = some x) (route : List Nat) :
    trailAt source roots (a ++ route) = x.after source route := by
  obtain ⟨start, pattern, root, r, rfl, hs, hroot, hx⟩ := trailAt_eq_some.mp h
  simp [trailAt, hs, hroot, Trail.after_append, hx]

theorem trailAt_snoc (h : trailAt source roots a = some x) (hy : x.Goes source k y) :
    trailAt source roots (a ++ [k]) = some y := by
  rw [trailAt_append h, Trail.after_singleton, Trail.getElem?_next]
  exact hy

/-- What fresh attempts have and every way on keeps, all trails have. -/
theorem trailAt_induct {P : List Nat → Trail → Prop} (h : trailAt source roots a = some x)
    (hseed : ∀ start pattern root, start < source.length → roots[pattern]? = some root →
      P [start, pattern] (.seed start pattern root))
    (hgoes : ∀ a x k y, trailAt source roots a = some x → P a x → x.Goes source k y →
      P (a ++ [k]) y) : P a x := by
  have hall : ∀ route b y, trailAt source roots b = some y → P b y →
      y.after source route = some x → P (b ++ route) x := by
    intro route
    induction route with
    | nil =>
      intro b y _ hP hx
      rw [List.append_nil, ← Option.some.inj hx]
      exact hP
    | cons k route ih =>
      intro b y hb hP hx
      obtain ⟨z, hz, hx⟩ := Trail.after_cons_eq_some.mp hx
      rw [List.append_cons]
      exact ih (b ++ [k]) z (trailAt_snoc hb hz) (hgoes b y k z hb hP hz) hx
  obtain ⟨start, pattern, root, route, rfl, hs, hroot, hx⟩ := trailAt_eq_some.mp h
  have hfresh : trailAt source roots [start, pattern] = some (.seed start pattern root) :=
    trailAt_eq_some.mpr ⟨start, pattern, root, [], rfl, hs, hroot, rfl⟩
  exact hall route [start, pattern] _ hfresh (hseed start pattern root hs hroot) hx

theorem reached_of_trailAt (h : trailAt source roots a = some x) :
    Reached source roots x.offset x.thread :=
  trailAt_induct (P := fun _ x => Reached source roots x.offset x.thread) h
    (fun _ _ _ hs hroot => reached_seed hs hroot) fun _ _ _ _ _ ih hgoes => ih.step hgoes.step

theorem address_eq (h : trailAt source roots a = some x) :
    ∃ route, a = x.thread.start :: x.thread.pattern :: route := by
  refine trailAt_induct (P := fun a x => ∃ route, a = x.thread.start :: x.thread.pattern :: route) h
    (fun start pattern root _ _ => ⟨[], rfl⟩) fun a x k y _ ih hgoes => ?_
  obtain ⟨route, rfl⟩ := ih
  have hstart := hgoes.step.start_eq
  have hpattern := hgoes.step.pattern_eq
  dsimp only at hstart hpattern
  rw [hstart, hpattern]
  exact ⟨route ++ [k], rfl⟩

theorem before_of_trailAt (h : trailAt source roots a = some x) {j : Nat} (hj : x.offset < j)
    (route : List Nat) : Route.Before a (j :: route) := by
  obtain ⟨start, pattern, root, r, rfl, -, -, hx⟩ := trailAt_eq_some.mp h
  have hle : start ≤ x.offset := Trail.offset_le_of_after hx
  exact .inl (Nat.lt_of_le_of_lt hle hj)

end Homoicon.Search
