import Homoicon.Proofs.Pattern.Span
import Homoicon.Proofs.Thread.Completion
import Homoicon.Proofs.Thread.Outcome
import Homoicon.Proofs.Thread.Sound

/-! Trying all branches of a thread in order makes the attempts at its pattern in their order. -/
namespace Homoicon
open Pattern (ofNode ofNodes)
open Trail (Outcomes OutcomesAll outcomesAll_append outcomesAll_singleton)

/-- The trail of an attempt, with a thread that is to be where the attempt has come to. -/
def Attempt.trail (s : Attempt) (t : Thread) : Trail :=
  ⟨s.offset, { t with records := s.records }, s.left, s.returned⟩

variable {source : List Node} {s : Attempt} {t : Thread} {mark : UInt64} {shape : Shape}
  {items : List Pattern} {k : Nat} {ends : List Trail} {marks : Nat → UInt64}

namespace Trail

theorem outcomes_of_next {x : Trail} {p : Pattern} {next : List Trail}
    (hcur : x.thread.top.current = some p) (hnext : x.next source = next)
    (h : OutcomesAll source next ends) : Outcomes source x ends := by
  refine .tried ?_ (hnext ▸ h)
  rintro ⟨hend, -⟩
  cases hend.symm.trans hcur

end Trail

namespace Attempt

theorem next_trail_of_anchor {start : Bool} (hcur : t.top.current = some (.anchor start)) :
    (s.trail t).next source =
      if s.offset = (if start then 0 else source.length) then [s.trail t.pass] else [] := by
  have hnext : (s.trail t).next source =
      (if (if start then s.offset == 0 else s.offset == source.length) = true then
        [{ t with records := s.records }.pass] else []).map (s.trail t).follow := by
    apply Trail.next_of_move
    · simp [trail, Thread.awaitsInput, hcur, Pattern.isTest]
    · simp [trail, Thread.move, hcur]
  have hpass : (s.trail t).follow { t with records := s.records }.pass = s.trail t.pass :=
    Trail.follow_within rfl
  have hiff : (if start then s.offset == 0 else s.offset == source.length) = true ↔
      s.offset = if start then 0 else source.length := by
    cases start <;> simp
  rw [hnext]
  by_cases hs : s.offset = if start then 0 else source.length
  · rw [if_pos (hiff.mpr hs), if_pos hs, List.map_singleton, hpass]
  · rw [if_neg (mt hiff.mp hs), if_neg hs]
    rfl

/-- From before a group, a thread goes into it, or past one that is optional. -/
theorem next_trail_of_group (hcur : t.top.current = some (.group mark shape items)) :
    (s.trail t).next source =
      match shape with
      | .sequence => [s.trail (t.enter mark shape items 0)]
      | .choice => (List.range items.length).map fun k => s.trail (t.enter mark shape items k)
      | .optional true => [s.trail (t.enter mark shape items 0), s.trail t.pass]
      | .optional false => [s.trail t.pass, s.trail (t.enter mark shape items 0)]
      | .repetition _ =>
        [(s.entered (t.top.index :: t.position)).trail (t.enter mark shape items 0)]
      | .capture name =>
        [(s.opened name (Pattern.isSingle items)).trail (t.enter mark shape items 0)] := by
  have hnext : (s.trail t).next source =
      ({ t with records := s.records }.entries mark shape items s.offset).map
        (s.trail t).follow := by
    apply Trail.next_of_move
    · simp [trail, Thread.awaitsInput, hcur, Pattern.isTest]
    · simp [trail, Thread.move, hcur]
  have hout : ¬t.outer.length + 1 < t.outer.length := by omega
  rw [hnext]
  cases shape with
  | optional greedy =>
    cases greedy <;>
      simp [trail, Trail.follow, Thread.entries, Thread.enter, Thread.pass, Shape.isRepetition]
  | capture name =>
    cases items with
    | nil =>
      simp [trail, Trail.follow, Thread.entries, Thread.enter, opened, Progress.opened,
        Shape.isRepetition, Pattern.isSingle]
    | cons item items =>
      cases items <;>
        simp [trail, Trail.follow, Thread.entries, Thread.enter, opened, Progress.opened,
          Shape.isRepetition, Pattern.isSingle]
  | _ =>
    simp [hout, trail, Trail.follow, Thread.entries, Thread.enter, Shape.isRepetition, entered,
      Thread.position]

/-- What follows the end of a group that a thread has entered: what follows the group, or another
round. -/
def beyond (s : Attempt) (t : Thread) (mark : UInt64) (items : List Pattern) : Shape → List Trail
  | .sequence | .choice | .optional _ => [s.trail t.pass]
  | .repetition true => [s.trail (t.enter mark (.repetition true) items 0), s.trail t.pass]
  | .repetition false =>
    [(s.leaving (t.top.index :: t.position)).trail t.pass,
      s.trail (t.enter mark (.repetition false) items 0)]
  | .capture name => [(s.closed name).trail t.pass]

theorem next_trail_of_end :
    (s.trail (t.enter mark shape items items.length)).next source =
      s.beyond t mark items shape := by
  have hout : ¬t.outer.length + 1 < t.outer.length := by omega
  cases shape with
  | repetition greedy =>
    cases greedy <;>
      simp [hout, beyond, trail, Trail.next, Trail.follow, Thread.awaitsInput, Thread.move,
        Frame.current, Thread.exits, Thread.enter, Thread.leave, Thread.restart, Thread.pass,
        leaving, Thread.position]
  | _ =>
    simp [hout, beyond, trail, Trail.next, Trail.follow, Thread.awaitsInput, Thread.move,
      Frame.current, Thread.exits, Thread.enter, Thread.leave, Thread.pass, closed,
      Progress.closed]

theorem outcomes_of_end (h : OutcomesAll source (s.beyond t mark items shape) ends) :
    Outcomes source (s.trail ((t.enter mark shape items 0).moved
      (t.enter mark shape items 0).top.items.length [])) ends := by
  show Outcomes source (s.trail (t.enter mark shape items items.length)) ends
  rw [← next_trail_of_end] at h
  exact .tried (fun hdone => List.cons_ne_nil _ _ hdone.2) h

/-- Trying all that follows the ends of a group which is passed in one way only. -/
theorem outcomesAll_of_ends {as : List Attempt} {f : Attempt → Attempt}
    (hf : ∀ s : Attempt, s.beyond t mark items shape = [(f s).trail t.pass])
    (h : OutcomesAll source (as.map fun s => (f s).trail t.pass) ends) :
    OutcomesAll source (as.map (·.trail ((t.enter mark shape items 0).moved
      (t.enter mark shape items 0).top.items.length []))) ends := by
  rw [List.map_eq_flatMap] at h
  apply Trail.outcomesAll_of_flatMap h
  intro s _ ends h
  apply outcomes_of_end
  rw [hf]
  exact h

end Attempt

namespace Blueprint

/-- Trying a test, which leads past a node if it leads anywhere. -/
theorem outcomes_of_test {condition : Test} {P : Node → Prop} [DecidablePred P]
    (hcur : t.top.current = some (.test condition))
    (hpass : ∀ node, condition.passes node = .ok (decide (P node)))
    (h : OutcomesAll source ((match source[s.offset]? with
      | some node => if P node then [s.past] else []
      | none => []).map fun s' : Attempt => s'.trail t.pass) ends) :
    Outcomes source (s.trail t) ends := by
  cases hnode : source[s.offset]? with
  | none =>
    rw [hnode] at h
    exact Trail.outcomes_of_next hcur (Trail.next_of_end hcur hnode) h
  | some node =>
    rw [hnode] at h
    apply Trail.outcomes_of_next hcur (Trail.next_of_test hcur hnode (hpass node))
    by_cases hnode : P node
    · rw [if_pos (decide_eq_true hnode)]
      dsimp only at h
      rw [if_pos hnode] at h
      exact h
    · rw [if_neg (by simpa using hnode)]
      dsimp only at h
      rw [if_neg hnode] at h
      exact h

/-- Trying all rounds of a repetition, each of which takes a node at least. -/
theorem outcomes_of_rounds {round : Attempt → List Attempt} {greedy : Bool}
    (hround : ∀ (s : Attempt) ends, s.offset ≤ source.length →
      OutcomesAll source
        ((round s).map (·.trail ((t.enter mark (.repetition greedy) items 0).moved
          (t.enter mark (.repetition greedy) items 0).top.items.length []))) ends →
      Outcomes source (s.trail (t.enter mark (.repetition greedy) items 0)) ends)
    (hlt : ∀ s : Attempt, s.offset ≤ source.length → ∀ s' ∈ round s,
      s.offset < s'.offset ∧ s'.offset ≤ source.length)
    (n : Nat) (s : Attempt) (hs : s.offset ≤ source.length) (hn : source.length - s.offset ≤ n)
    (ends : List Trail)
    (h : OutcomesAll source
      ((rounds round greedy (t.top.index :: t.position) n s).map (·.trail t.pass)) ends) :
    Outcomes source (s.trail (t.enter mark (.repetition greedy) items 0)) ends := by
  induction n generalizing s ends with
  | zero =>
    have hnone : round s = [] := by
      apply List.eq_nil_iff_forall_not_mem.mpr
      intro s' hs'
      have hbounds := hlt s hs s' hs'
      omega
    apply hround s ends hs
    rw [hnone]
    exact h
  | succ n ih =>
    apply hround s ends hs
    rw [rounds, List.map_flatMap] at h
    apply Trail.outcomesAll_of_flatMap h
    intro s' hs' ends h
    apply Attempt.outcomes_of_end
    have hbounds := hlt s hs s' hs'
    have hagain := fun ends => ih s' hbounds.2 (by omega) ends
    cases greedy with
    | true =>
      rw [if_pos rfl, List.map_append] at h
      obtain ⟨first, later, rfl, hfirst, hlater⟩ := outcomesAll_append.mp h
      exact .cons (hagain first hfirst) hlater
    | false =>
      rw [if_neg Bool.false_ne_true, List.map_cons] at h
      obtain ⟨first, later, rfl, hfirst, hlater⟩ := Trail.outcomesAll_cons.mp h
      exact .cons hfirst (outcomesAll_singleton.mpr (hagain later hlater))

theorem length_ofNodes (serial : Nat) (bs : List Blueprint) :
    (ofNodes marks serial (nodes bs)).length = bs.length := by
  induction bs generalizing serial with
  | nil => rfl
  | cons b bs ih => exact congrArg (· + 1) (ih _)

mutual

/-- Trying all that a thread can do from a built pattern on is to try all that it can do after each
attempt at the pattern. -/
theorem outcomes_of_attempts (b : Blueprint) (serial : Nat) (s : Attempt) (t : Thread)
    (hcur : t.top.current = some (ofNode marks serial b.node)) (hb : b.Productive)
    (hs : s.offset ≤ source.length) (ends : List Trail)
    (h : OutcomesAll source
      ((b.attempts source (t.top.index :: t.position) s).map (·.trail t.pass)) ends) :
    Outcomes source (s.trail t) ends := by
  cases b with
  | sequence items =>
    apply Trail.outcomes_of_next hcur (Attempt.next_trail_of_group hcur)
    rw [outcomesAll_singleton]
    apply outcomes_of_attemptsAll items _ s (t.enter _ .sequence _ 0) 0 Shape.noConfusion rfl
      (Nat.zero_le _) hb hs ends
    exact Attempt.outcomesAll_of_ends (fun _ => rfl) h
  | alternatives items =>
    apply Trail.outcomes_of_next hcur (Attempt.next_trail_of_group hcur)
    show OutcomesAll source ((List.range _).map fun k => s.trail (t.enter _ .choice _ k)) ends
    rw [List.range_eq_range', length_ofNodes]
    apply outcomes_of_attemptsAny items _ s (t.enter _ .choice _ 0) 0 rfl rfl hb hs ends
    exact Attempt.outcomesAll_of_ends (fun _ => rfl) h
  | optional items greedy =>
    apply Trail.outcomes_of_next hcur (Attempt.next_trail_of_group hcur)
    have hinside : ∀ mark ends, OutcomesAll source ((attemptsAll source items
        (t.top.index :: t.position) 0 s).map (·.trail t.pass)) ends →
        Outcomes source (s.trail (t.enter mark (.optional greedy)
          (ofNodes marks (serial + 1) (nodes items)) 0)) ends := by
      intro mark ends h
      apply outcomes_of_attemptsAll items _ s (t.enter _ (.optional greedy) _ 0) 0
        Shape.noConfusion rfl (Nat.zero_le _) hb.2 hs ends
      exact Attempt.outcomesAll_of_ends (fun _ => rfl) h
    cases greedy with
    | true =>
      obtain ⟨first, later, rfl, hfirst, hlater⟩ := outcomesAll_append.mp (List.map_append ▸ h)
      exact .cons (hinside _ first hfirst) hlater
    | false =>
      obtain ⟨first, later, rfl, hfirst, hlater⟩ := Trail.outcomesAll_cons.mp h
      exact .cons hfirst (outcomesAll_singleton.mpr (hinside _ later hlater))
  | repeated items greedy =>
    rw [ofNode_repeated] at hcur
    apply Trail.outcomes_of_next hcur (Attempt.next_trail_of_group hcur)
    rw [outcomesAll_singleton]
    refine outcomes_of_rounds (fun s ends hs h => ?_) (fun s hs s' hs' => ?_) _
      (s.entered (t.top.index :: t.position)) hs (Nat.le_refl _) ends h
    · exact outcomes_of_attemptsAll items _ s (t.enter _ (.repetition greedy) _ 0) 0
        Shape.noConfusion rfl (Nat.zero_le _) hb.2 hs ends h
    · exact offset_lt_of_mem_round hb.1 hs hs'
  | anchor start =>
    apply Trail.outcomes_of_next hcur (Attempt.next_trail_of_anchor hcur)
    replace h : OutcomesAll source ((if s.offset = (if start then 0 else source.length) then
        [s] else []).map (·.trail t.pass)) ends := h
    rwa [apply_ite (List.map _)] at h
  | matchType kind =>
    rw [ofNode_matchType] at hcur
    apply outcomes_of_test hcur _ h
    intro node
    have hiff : (some kind == some node.kind) = decide (node.kind = kind) :=
      Bool.eq_iff_iff.mpr (by rw [beq_iff_eq, decide_eq_true_iff, Option.some.injEq, eq_comm])
    exact congrArg Except.ok hiff
  | matchValue target =>
    apply outcomes_of_test hcur _ h
    intro node
    have hiff : (node.kind == target.kind && node.hash.isSome && node.hash == target.hash) =
        decide (node.kind = target.kind ∧ node.hash.isSome ∧ node.hash = target.hash) :=
      Bool.eq_iff_iff.mpr (by simp [and_assoc])
    exact congrArg Except.ok hiff
  | capture name inner =>
    rw [ofNode_capture] at hcur
    apply Trail.outcomes_of_next hcur (Attempt.next_trail_of_group hcur)
    rw [outcomesAll_singleton]
    rw [attempts, List.map_map] at h
    let u := t.enter ((capture name inner).node.hash.getD (marks serial)) (.capture name)
      [ofNode marks (serial + 2) inner.node] 0
    have hsingle : Pattern.isSingle [ofNode marks (serial + 2) inner.node] = inner.isTest :=
      isTest_ofNode inner marks (serial + 2)
    rw [hsingle]
    apply outcomes_of_attempts inner (serial + 2) (s.opened name inner.isTest) u rfl hb hs ends
    exact Attempt.outcomesAll_of_ends (fun _ => rfl) h

/-- Trying all items of a group from one on. -/
theorem outcomes_of_attemptsAll (bs : List Blueprint) (serial : Nat) (s : Attempt) (t : Thread)
    (k : Nat) (hshape : t.top.shape ≠ .choice)
    (hitems : t.top.items.drop k = ofNodes marks serial (nodes bs)) (hk : k ≤ t.top.items.length)
    (hbs : ProductiveAll bs) (hs : s.offset ≤ source.length) (ends : List Trail)
    (h : OutcomesAll source ((attemptsAll source bs t.position k s).map
      (·.trail (t.moved t.top.items.length []))) ends) :
    Outcomes source (s.trail (t.moved k [])) ends := by
  cases bs with
  | nil =>
    rw [Nat.le_antisymm hk (List.drop_eq_nil_iff.mp hitems)]
    exact outcomesAll_singleton.mp h
  | cons b bs =>
    have hcur : (t.moved k []).top.current = some (ofNode marks serial b.node) :=
      getElem?_of_drop_eq_cons hitems
    have hdrop : t.top.items.drop (k + 1) = ofNodes marks (serial + b.node.size) (nodes bs) :=
      drop_succ_of_drop_eq_cons hitems
    apply outcomes_of_attempts b serial s (t.moved k []) hcur hbs.1 hs ends
    rw [Thread.pass_moved hshape]
    rw [attemptsAll, List.map_flatMap] at h
    apply Trail.outcomesAll_of_flatMap h
    intro m hm ends h
    have hm := (derives_bounds b (derives_of_mem_attempts b hm) hs).2
    exact outcomes_of_attemptsAll bs _ m t (k + 1) hshape hdrop (Frame.index_lt_of_current hcur)
      hbs.2 hm ends h

theorem outcomes_of_attemptsAny (bs : List Blueprint) (serial : Nat) (s : Attempt) (t : Thread)
    (k : Nat) (hshape : t.top.shape = .choice)
    (hitems : t.top.items.drop k = ofNodes marks serial (nodes bs))
    (hbs : ProductiveAll bs) (hs : s.offset ≤ source.length) (ends : List Trail)
    (h : OutcomesAll source ((attemptsAny source bs t.position k s).map
      (·.trail (t.moved t.top.items.length []))) ends) :
    OutcomesAll source ((List.range' k bs.length).map fun j => s.trail (t.moved j [])) ends := by
  cases bs with
  | nil => exact h
  | cons b bs =>
    have hcur : (t.moved k []).top.current = some (ofNode marks serial b.node) :=
      getElem?_of_drop_eq_cons hitems
    have hdrop : t.top.items.drop (k + 1) = ofNodes marks (serial + b.node.size) (nodes bs) :=
      drop_succ_of_drop_eq_cons hitems
    have hpass : (t.moved k []).pass = t.moved t.top.items.length [] := by
      simp [Thread.pass, Frame.advance, hshape, Thread.moved]
    rw [attemptsAny, List.map_append] at h
    obtain ⟨first, later, rfl, hfirst, hlater⟩ := outcomesAll_append.mp h
    rw [List.length_cons, List.range'_succ]
    refine .cons ?_ (outcomes_of_attemptsAny bs _ s t (k + 1) hshape hdrop hbs.2 hs later hlater)
    apply outcomes_of_attempts b serial s (t.moved k []) hcur hbs.1 hs first
    rw [hpass]
    exact hfirst

end

/-- Trying all that a fresh attempt at a built pattern can do ends in the attempts that there are,
in their order. -/
theorem outcomes_seed (b : Blueprint) (hb : b.Productive) {start : Nat}
    (hs : start ≤ source.length) (pattern : Nat) :
    ∃ t : Thread, t.Done ∧ Outcomes source (.seed start pattern (Search.rootFrame marks b.node))
      ((b.attemptsFrom source start).map (·.trail t)) := by
  obtain ⟨mark, hframe⟩ := b.rootFrame_node marks
  rw [hframe]
  let t := Thread.seed start pattern ⟨mark, .sequence, ofNodes marks 1 (nodes b.parts), 0⟩
  have hdone : (t.moved t.top.items.length []).Done := ⟨Thread.current_moved_end t [], rfl⟩
  refine ⟨t.moved t.top.items.length [], hdone, ?_⟩
  refine outcomes_of_attemptsAll b.parts 1 (.start start) t 0 Shape.noConfusion rfl (Nat.zero_le _)
    hb.parts hs _ (Trail.outcomesAll_of_done ?_)
  intro x hx
  obtain ⟨s, -, rfl⟩ := List.mem_map.mp hx
  exact hdone

end Blueprint
end Homoicon
