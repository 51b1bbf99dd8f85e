import Homoicon.Proofs.Thread.Step

/-! The steps of a thread spell out what its pattern takes. -/
namespace Homoicon
open Pattern (Takes TakesAll TakesAny)
open Relation (ReflTransGen TransGen)

variable {source : List Node} {s s' m : Progress}

namespace Frame

/-- What is left of a group to take, its end included. -/
def Rest (source : List Node) (f : Frame) : Progress → Progress → Prop :=
  match f.shape with
  | .choice =>
    match f.current with
    | some p => Takes source p
    | none => Eq
  | .sequence | .optional _ => TakesAll source (f.items.drop f.index)
  | .repetition _ => fun s s' => ∃ m, TakesAll source (f.items.drop f.index) s m ∧
      ReflTransGen (TakesAll source f.items) m s'
  | .capture name => fun s s' =>
    ∃ m, TakesAll source (f.items.drop f.index) s m ∧ s' = m.closed name

/-- What is left of several frames once the innermost group has ended. -/
def RestOuter (source : List Node) : List Frame → Progress → Progress → Prop
  | [] => Eq
  | parent :: outer => fun s s' => ∃ m, parent.advance.Rest source s m ∧ RestOuter source outer m s'

variable {f : Frame} {p : Pattern}

theorem rest_of_takes (h : f.current = some p) (hp : Takes source p s m)
    (hrest : f.advance.Rest source m s') : f.Rest source s s' := by
  have hdrop := drop_index_of_current h
  unfold Rest advance at *
  cases hs : f.shape with
  | choice =>
    have hend : f.items[f.items.length]? = none := List.getElem?_eq_none (Nat.le_refl _)
    simp only [hs, current, hend] at hrest
    subst hrest
    simpa only [h] using hp
  | repetition greedy =>
    simp only [hs] at hrest
    obtain ⟨k, hk, hloop⟩ := hrest
    exact ⟨k, hdrop ▸ ⟨m, hp, hk⟩, hloop⟩
  | capture name =>
    simp only [hs] at hrest
    obtain ⟨k, hk, rfl⟩ := hrest
    exact ⟨k, hdrop ▸ ⟨m, hp, hk⟩, rfl⟩
  | _ =>
    simp only [hs] at hrest
    exact hdrop ▸ ⟨m, hp, hrest⟩

theorem takes_of_rest {mark : UInt64} {shape : Shape} {items : List Pattern} {k : Nat}
    (hk : shape ≠ .choice ∧ k = 0 ∨ shape = .choice ∧ k < items.length)
    (h : Rest source ⟨mark, shape, items, k⟩
      { s with records := shape.onEntry items s.offset s.records } s') :
    Takes source (.group mark shape items) s s' := by
  rcases hk with ⟨hne, rfl⟩ | ⟨rfl, hk⟩
  · cases shape with
    | choice => exact absurd rfl hne
    | sequence => exact h
    | optional greedy => exact .inr h
    | repetition greedy =>
      obtain ⟨m, hm, hloop⟩ := h
      exact TransGen.head' hm hloop
    | capture name => exact h
  · have hcur : current ⟨mark, .choice, items, k⟩ = some items[k] := List.getElem?_eq_getElem hk
    simp only [Rest, hcur] at h
    exact Pattern.takesAny_iff.mpr ⟨_, List.getElem_mem hk, h⟩

/-- Nothing is left of a group that has come to its end but to record it. -/
theorem rest_of_end (h : f.current = none) :
    f.Rest source s { s with records := f.shape.onExit s.offset s.records } := by
  have hdrop := drop_index_of_end h
  unfold Rest
  cases hs : f.shape with
  | choice =>
    simp only [h]
    rfl
  | repetition greedy => exact ⟨s, hdrop ▸ rfl, .refl⟩
  | capture name => exact ⟨s, hdrop ▸ rfl, rfl⟩
  | _ =>
    simp only [hdrop]
    rfl

/-- A repetition that has come to its end may begin again. -/
theorem rest_of_restart {greedy : Bool} (h : f.current = none) (hs : f.shape = .repetition greedy)
    (hrest : Rest source { f with index := 0 } s s') : f.Rest source s s' := by
  have hdrop := drop_index_of_end h
  simp only [Rest, hs] at hrest ⊢
  obtain ⟨m, hm, hloop⟩ := hrest
  exact ⟨s, hdrop ▸ rfl, .head hm hloop⟩

end Frame

namespace Thread

/-- What a thread at an offset can still take until its pattern is done. -/
def Completes (source : List Node) (i : Nat) (t : Thread) (s' : Progress) : Prop :=
  ∃ m, t.top.Rest source ⟨i, t.records⟩ m ∧ Frame.RestOuter source t.outer m s'

variable {t u : Thread} {i j : Nat} {p : Pattern}

theorem completes_of_takes (h : t.top.current = some p)
    (hp : Takes source p ⟨i, t.records⟩ ⟨j, t.records⟩) (hpass : t.pass.Completes source j s') :
    t.Completes source i s' := by
  obtain ⟨m, hm, houter⟩ := hpass
  exact ⟨m, Frame.rest_of_takes h hp hm, houter⟩

/-- What a successor can take, the thread before it could. -/
theorem Step.completes (h : Step source (i, t) (j, u)) (hu : u.Completes source j s') :
    t.Completes source i s' := by
  cases h with
  | consume hi h =>
    obtain ⟨condition, hcur, hpass, rfl⟩ := consume_eq_some h
    exact completes_of_takes hcur ⟨_, hi, hpass, rfl⟩ hu
  | move h =>
    cases h with
    | skip h => exact completes_of_takes h (.inl rfl) hu
    | @anchor start h hs =>
      refine completes_of_takes h ⟨rfl, ?_⟩ hu
      cases start <;> simpa using hs
    | enter h hk =>
      obtain ⟨m, hm, k, hrest, houter⟩ := hu
      have hp := Frame.takes_of_rest (s := ⟨i, t.records⟩) hk hm
      exact ⟨k, Frame.rest_of_takes h hp hrest, houter⟩
    | leave h ho =>
      obtain ⟨m, hm, houter⟩ := hu
      refine ⟨_, Frame.rest_of_end h, ?_⟩
      rw [ho]
      exact ⟨m, hm, houter⟩
    | restart h ho hs =>
      obtain ⟨m, hm, houter⟩ := hu
      exact ⟨m, Frame.rest_of_restart h hs hm, houter⟩

theorem completes_of_steps {q : Nat × Thread} (h : ReflTransGen (Step source) q (j, u))
    (hu : u.Completes source j s') : q.2.Completes source q.1 s' := by
  induction h using ReflTransGen.head_induction_on with
  | refl => exact hu
  | head hstep _ ih => exact hstep.completes ih

/-- A thread at an item of its innermost group, with records of its own. -/
def moved (t : Thread) (index : Nat) (records : Records) : Thread :=
  { t with top := { t.top with index }, records }

theorem current_moved_end (t : Thread) (records : Records) :
    (t.moved t.top.items.length records).top.current = none :=
  List.getElem?_eq_none (Nat.le_refl _)

theorem pass_moved {k : Nat} (h : t.top.shape ≠ .choice) (records : Records) :
    (t.moved k records).pass = t.moved (k + 1) records := by
  unfold pass moved Frame.advance
  split
  · next hs => exact absurd hs h
  · rfl

theorem step_leave {mark : UInt64} {shape : Shape} {items : List Pattern} {k : Nat}
    (records : Records) (i : Nat) :
    Step source (i, (t.enter mark shape items k).moved items.length records)
      (i, { t.pass with records := shape.onExit i records }) :=
  .move (.leave (current_moved_end (t.enter mark shape items k) records) rfl)

mutual

/-- Steps lead past the current item for all that it takes. -/
theorem steps_of_takes (p : Pattern) (s s' : Progress) (h : Takes source p s s') (t : Thread)
    (hcur : t.top.current = some p) :
    ReflTransGen (Step source) (s.offset, { t with records := s.records })
      (s'.offset, { t.pass with records := s'.records }) := by
  cases p with
  | test condition =>
    obtain ⟨node, hnode, hpass, rfl⟩ := h
    refine .single (.consume hnode ?_)
    simp [consume, hcur, hpass, Except.map, pass, Progress.past]
  | anchor start =>
    obtain ⟨rfl, hs⟩ := h
    refine .single (.move (.anchor hcur ?_))
    cases start <;> simpa using hs
  | faulty fault => exact h.elim
  | group mark shape items =>
    cases shape with
    | choice =>
      obtain ⟨k, hk, hsteps⟩ := steps_of_takesAny items s s' h
      refine .head (.move (.enter hcur (.inr ⟨rfl, hk⟩))) ?_
      refine (hsteps (t.enter mark .choice items k) rfl rfl).tail ?_
      exact step_leave s'.records s'.offset
    | sequence =>
      refine .head (.move (.enter hcur (.inl ⟨Shape.noConfusion, rfl⟩))) ?_
      refine (steps_of_takesAll items s s' h (t.enter mark .sequence items 0) 0
        Shape.noConfusion rfl (Nat.zero_le _)).tail ?_
      exact step_leave s'.records s'.offset
    | optional greedy =>
      rcases h with rfl | h
      · exact .single (.move (.skip hcur))
      · refine .head (.move (.enter hcur (.inl ⟨Shape.noConfusion, rfl⟩))) ?_
        refine (steps_of_takesAll items s s' h (t.enter mark (.optional greedy) items 0) 0
          Shape.noConfusion rfl (Nat.zero_le _)).tail ?_
        exact step_leave s'.records s'.offset
    | capture name =>
      obtain ⟨m, h, rfl⟩ := h
      refine .head (.move (.enter hcur (.inl ⟨Shape.noConfusion, rfl⟩))) ?_
      refine (steps_of_takesAll items _ m h (t.enter mark (.capture name) items 0) 0
        Shape.noConfusion rfl (Nat.zero_le _)).tail ?_
      exact step_leave m.records m.offset
    | repetition greedy =>
      replace h : TransGen (TakesAll source items) s s' := h
      let u := t.enter mark (.repetition greedy) items 0
      have hround : ∀ m m', TakesAll source items m m' → ReflTransGen (Step source)
          (m.offset, u.moved 0 m.records) (m'.offset, u.moved items.length m'.records) :=
        fun m m' h => steps_of_takesAll items m m' h u 0 Shape.noConfusion rfl (Nat.zero_le _)
      refine .head (.move (.enter hcur (.inl ⟨Shape.noConfusion, rfl⟩))) (.tail (b := (s'.offset,
        u.moved items.length s'.records)) ?_ (step_leave s'.records s'.offset))
      -- round after round, each from the end of the one before
      induction h with
      | single h => exact hround _ _ h
      | @tail m m' _ h ih =>
        have hagain : Step source (m.offset, u.moved items.length m.records)
            (m.offset, u.moved 0 m.records) :=
          .move (.restart (current_moved_end u _) (List.cons_ne_nil _ _) rfl)
        exact (ih.tail hagain).trans (hround _ _ h)

theorem steps_of_takesAll (items : List Pattern) (s s' : Progress)
    (h : TakesAll source items s s') (t : Thread) (k : Nat) (hshape : t.top.shape ≠ .choice)
    (hitems : t.top.items.drop k = items) (hk : k ≤ t.top.items.length) :
    ReflTransGen (Step source) (s.offset, t.moved k s.records)
      (s'.offset, t.moved t.top.items.length s'.records) := by
  cases items with
  | nil =>
    obtain rfl : s = s' := h
    rw [Nat.le_antisymm hk (List.drop_eq_nil_iff.mp hitems)]
  | cons item items =>
    obtain ⟨m, hitem, hrest⟩ := h
    have hcur : (t.moved k s.records).top.current = some item := getElem?_of_drop_eq_cons hitems
    have hdrop := drop_succ_of_drop_eq_cons hitems
    have hfirst := steps_of_takes item s m hitem (t.moved k s.records) hcur
    rw [pass_moved hshape] at hfirst
    have hlater := steps_of_takesAll items m s' hrest t (k + 1) hshape hdrop
      (Frame.index_lt_of_current hcur)
    exact hfirst.trans hlater

theorem steps_of_takesAny (items : List Pattern) (s s' : Progress)
    (h : TakesAny source items s s') :
    ∃ k, k < items.length ∧ ∀ t : Thread, t.top.shape = .choice → t.top.current = items[k]? →
      ReflTransGen (Step source) (s.offset, { t with records := s.records })
        (s'.offset, t.moved t.top.items.length s'.records) := by
  cases items with
  | nil => exact h.elim
  | cons item items =>
    rcases h with h | h
    · refine ⟨0, Nat.succ_pos _, fun t hshape hcur => ?_⟩
      have hsteps := steps_of_takes item s s' h t hcur
      have hpass : t.pass = t.moved t.top.items.length t.records := by
        simp [pass, Frame.advance, hshape, moved]
      rwa [hpass] at hsteps
    · obtain ⟨k, hk, hsteps⟩ := steps_of_takesAny items s s' h
      exact ⟨k + 1, Nat.succ_lt_succ hk, hsteps⟩

end

end Thread
end Homoicon
