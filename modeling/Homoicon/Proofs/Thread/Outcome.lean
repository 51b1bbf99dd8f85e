import Homoicon.Proofs.Thread.Route
import Homoicon.Proofs.Thread.Trail

/-! What a trail ends in when all of its branches are tried in order. -/
namespace Homoicon
namespace Trail

mutual

/-- The ends of a trail's pattern, in the order in which a depth-first search finds them. -/
inductive Outcomes (source : List Node) : Trail → List Trail → Prop
  | done {x : Trail} (h : x.thread.Done) : Outcomes source x [x]
  | tried {x : Trail} {ends : List Trail} (h : ¬x.thread.Done)
      (hnext : OutcomesAll source (x.next source) ends) : Outcomes source x ends

/-- The ends of several trails, those of the earlier ones first. -/
inductive OutcomesAll (source : List Node) : List Trail → List Trail → Prop
  | nil : OutcomesAll source [] []
  | cons {x : Trail} {rest first later : List Trail} (h : Outcomes source x first)
      (hrest : OutcomesAll source rest later) : OutcomesAll source (x :: rest) (first ++ later)

end

variable {source : List Node} {x y z : Trail} {xs ys ends : List Trail} {P : Trail → Bool}

theorem outcomesAll_nil : OutcomesAll source [] ends ↔ ends = [] := by
  constructor
  · rintro ⟨⟩
    rfl
  · rintro rfl
    exact .nil

theorem outcomesAll_cons :
    OutcomesAll source (x :: xs) ends ↔
      ∃ first later, ends = first ++ later ∧ Outcomes source x first ∧
        OutcomesAll source xs later := by
  constructor
  · rintro ⟨⟩
    exact ⟨_, _, rfl, ‹_›, ‹_›⟩
  · rintro ⟨first, later, rfl, h, hrest⟩
    exact .cons h hrest

theorem outcomesAll_singleton : OutcomesAll source [x] ends ↔ Outcomes source x ends := by
  simp [outcomesAll_cons, outcomesAll_nil]

theorem outcomesAll_append :
    OutcomesAll source (xs ++ ys) ends ↔
      ∃ first later, ends = first ++ later ∧ OutcomesAll source xs first ∧
        OutcomesAll source ys later := by
  induction xs generalizing ends with
  | nil =>
    constructor
    · exact fun h => ⟨[], ends, rfl, .nil, h⟩
    · rintro ⟨first, later, rfl, h, hys⟩
      rw [outcomesAll_nil.mp h]
      exact hys
  | cons x xs ih =>
    rw [List.cons_append, outcomesAll_cons]
    constructor
    · rintro ⟨first, later, rfl, hx, h⟩
      obtain ⟨mid, last, rfl, hxs, hys⟩ := ih.mp h
      exact ⟨first ++ mid, last, (List.append_assoc _ _ _).symm, .cons hx hxs, hys⟩
    · rintro ⟨first, later, rfl, h, hys⟩
      obtain ⟨mid, last, rfl, hx, hxs⟩ := outcomesAll_cons.mp h
      exact ⟨mid, last ++ later, List.append_assoc _ _ _, hx, ih.mpr ⟨_, _, rfl, hxs, hys⟩⟩

/-- What stands for several lists of trails each, has the ends of them all. -/
theorem outcomesAll_of_flatMap {α : Type} {f : α → List Trail} {g : α → Trail} {as : List α}
    (h : OutcomesAll source (as.flatMap f) ends)
    (hg : ∀ a ∈ as, ∀ ends, OutcomesAll source (f a) ends → Outcomes source (g a) ends) :
    OutcomesAll source (as.map g) ends := by
  induction as generalizing ends with
  | nil => exact h
  | cons a as ih =>
    obtain ⟨first, later, rfl, hfirst, hlater⟩ := outcomesAll_append.mp h
    exact .cons (hg a (.head _) first hfirst) (ih hlater fun b hb => hg b (.tail _ hb))

theorem outcomesAll_of_done (h : ∀ x ∈ xs, x.thread.Done) : OutcomesAll source xs xs := by
  induction xs with
  | nil => exact .nil
  | cons x xs ih => exact .cons (.done (h x (.head _))) (ih fun y hy => h y (.tail _ hy))

mutual

theorem Outcomes.exists_route {x : Trail} {ends : List Trail} (h : Outcomes source x ends) :
    ∀ y ∈ ends, ∃ route, x.after source route = some y ∧ y.thread.Done :=
  match h with
  | .done h => by
    intro y hy
    rw [List.mem_singleton.mp hy]
    exact ⟨[], rfl, h⟩
  | .tried _ hnext => by
    intro y hy
    obtain ⟨k, z, route, hz, hroute, hdone⟩ := hnext.exists_route y hy
    exact ⟨k :: route, after_cons_eq_some.mpr ⟨z, getElem?_next.mp hz, hroute⟩, hdone⟩

theorem OutcomesAll.exists_route {xs ends : List Trail} (h : OutcomesAll source xs ends) :
    ∀ y ∈ ends, ∃ (k : Nat) (z : Trail) (route : List Nat), xs[k]? = some z ∧
      z.after source route = some y ∧ y.thread.Done :=
  match h with
  | .nil => List.forall_mem_nil _
  | .cons h hrest => by
    intro y hy
    rcases List.mem_append.mp hy with hy | hy
    · obtain ⟨route, hroute, hdone⟩ := h.exists_route y hy
      exact ⟨0, _, route, rfl, hroute, hdone⟩
    · obtain ⟨k, z, route, hz, hroute, hdone⟩ := hrest.exists_route y hy
      exact ⟨k + 1, z, route, hz, hroute, hdone⟩

end

mutual

/-- The first of the ends that have a property is the one on the first route to any. -/
theorem Outcomes.find?_eq {x : Trail} {ends : List Trail} (h : Outcomes source x ends) :
    ∀ route y, x.after source route = some y → y.thread.Done → P y = true →
      (∀ route' y', x.after source route' = some y' → y'.thread.Done → P y' = true →
        Route.Le route route') →
      ends.find? P = some y :=
  match h with
  | .done h => by
    intro route y hroute hdone hP _
    cases route with
    | nil =>
      cases Option.some.inj hroute
      simp [hP]
    | cons k route =>
      obtain ⟨z, hz, -⟩ := after_cons_eq_some.mp hroute
      rw [← getElem?_next, next_of_done h] at hz
      cases hz
  | .tried h hnext => by
    intro route y hroute hdone hP hfirst
    cases route with
    | nil =>
      cases Option.some.inj hroute
      exact absurd hdone h
    | cons k route =>
      obtain ⟨z, hz, hroute⟩ := after_cons_eq_some.mp hroute
      refine hnext.find?_eq k z route y (getElem?_next.mpr hz) hroute hdone hP ?_
      intro k' z' route' y' hz' hroute' hdone' hP'
      have hroute' := after_cons_eq_some.mpr ⟨z', getElem?_next.mp hz', hroute'⟩
      exact hfirst (k' :: route') y' hroute' hdone' hP'

theorem OutcomesAll.find?_eq {xs ends : List Trail} (h : OutcomesAll source xs ends) :
    ∀ k z route y, xs[k]? = some z → z.after source route = some y → y.thread.Done → P y = true →
      (∀ k' z' route' y', xs[k']? = some z' → z'.after source route' = some y' →
        y'.thread.Done → P y' = true → Route.Le (k :: route) (k' :: route')) →
      ends.find? P = some y :=
  match h with
  | .nil => by
    intro k z route y hz
    cases hz
  | @OutcomesAll.cons _ x _ first _ h hrest => by
    intro k z route y hz hroute hdone hP hfirst
    rw [List.find?_append]
    cases k with
    | zero =>
      cases Option.some.inj hz
      rw [h.find?_eq route y hroute hdone hP fun route' y' hroute' hdone' hP' =>
        Route.le_cons.mp (hfirst 0 x route' y' rfl hroute' hdone' hP')]
      rfl
    | succ k =>
      have hnone : first.find? P = none := by
        refine List.find?_eq_none.mpr fun y' hy' hP' => ?_
        obtain ⟨route', hroute', hdone'⟩ := h.exists_route y' hy'
        exact Route.not_le_of_lt (Nat.succ_pos k) (hfirst 0 x route' y' rfl hroute' hdone' hP')
      rw [hnone, Option.none_or]
      refine hrest.find?_eq k z route y hz hroute hdone hP ?_
      intro k' z' route' y' hz' hroute' hdone' hP'
      exact Route.le_succ.mp (hfirst (k' + 1) z' route' y' hz' hroute' hdone' hP')

end

end Trail
end Homoicon
