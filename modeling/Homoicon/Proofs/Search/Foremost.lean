import Homoicon.Proofs.Search.Priority

/-! From offset to offset, a search keeps the first trails and reports their ends. -/
namespace Homoicon.Search

variable {source : List Node} {roots : List Frame} {i : Nat} {visits live : List Visit}
  {x y : Trail} {v : Visit} {b : List Nat}

/-- A visit to the end of a pattern by the first trail of its attempt that ends there and has not
returned. -/
structure Foremost (source : List Node) (roots : List Frame) (i : Nat) (v : Visit) (x : Trail) :
    Prop where
  onTrail : OnTrail source roots i v x
  done : v.thread.Done
  first : ∀ b y, trailAt source roots b = some y → y.offset = i → y.returned = false →
    y.thread.Done → y.thread.SameAttempt v.thread → Route.Le v.address b

/-- Visits with which a search goes on past a node, by the first trails to all places at which any
has come past it that has not returned. -/
structure Continues (source : List Node) (roots : List Frame) (i : Nat) (live : List Visit) :
    Prop where
  sorted : live.Pairwise Visit.Before
  early : ∀ q ∈ live, ∀ pattern, Route.Before q.address [i, pattern]
  onTrail : ∀ q ∈ live, ∃ x, OnTrail source roots i q x ∧ x.left = []
  first : ∀ b y input u, trailAt source roots b = some y → y.offset + 1 = i →
    source[y.offset]? = some input → y.thread.consume input = .ok (some u) → y.returned = false →
    ∃ q ∈ live, q.thread.place = u.place ∧ Route.Le q.address (b ++ [0])

theorem continues_nil (source : List Node) (roots : List Frame) :
    Continues source roots 0 [] where
  sorted := .nil
  early := List.forall_mem_nil _
  onTrail := List.forall_mem_nil _
  first := by
    intro b y input u _ ho
    exact absurd ho (Nat.succ_ne_zero _)

theorem mem_each_seeds :
    v ∈ Visit.each [i] (seeds roots i) ↔
      ∃ pattern root, roots[pattern]? = some root ∧ v = ⟨[i, pattern], .seed i pattern root⟩ := by
  rw [Visit.mem_each]
  simp only [seeds, List.getElem?_mapIdx, Option.map_eq_some_iff]
  constructor
  · rintro ⟨pattern, ⟨root, hroot, hthread⟩, haddress⟩
    exact ⟨pattern, root, hroot, congrArg₂ Visit.mk haddress hthread.symm⟩
  · rintro ⟨pattern, root, hroot, rfl⟩
    exact ⟨pattern, ⟨root, hroot, rfl⟩, rfl⟩

theorem Continues.leads_end (h : Continues source roots i live) (hi : source.length ≤ i) :
    Leads source roots i live where
  sorted := h.sorted
  onTrail := h.onTrail
  first := by
    rintro a x (⟨hlt, -⟩ | ⟨hx, ho, hinput, hu⟩) hreturned
    · exact absurd hlt (Nat.not_lt_of_le hi)
    · exact h.first _ _ _ _ hx ho hinput hu hreturned

theorem Continues.leads (h : Continues source roots i live) (hi : i < source.length) :
    Leads source roots i (live ++ Visit.each [i] (seeds roots i)) where
  sorted := by
    refine List.pairwise_append.mpr ⟨h.sorted, Visit.pairwise_each [i] _, ?_⟩
    intro q hq v hv
    obtain ⟨pattern, root, -, rfl⟩ := mem_each_seeds.mp hv
    exact h.early q hq pattern
  onTrail := by
    intro q hq
    rcases List.mem_append.mp hq with hq | hq
    · exact h.onTrail q hq
    · obtain ⟨pattern, root, hroot, rfl⟩ := mem_each_seeds.mp hq
      have htrail : trailAt source roots [i, pattern] = some (.seed i pattern root) :=
        trailAt_eq_some.mpr ⟨i, pattern, root, [], rfl, hi, hroot, rfl⟩
      exact ⟨.seed i pattern root, ⟨htrail, rfl, rfl, rfl⟩, rfl⟩
  first := by
    rintro a x (⟨-, hroot⟩ | ⟨hx, ho, hinput, hu⟩) hreturned
    · exact ⟨_, List.mem_append_right _ (mem_each_seeds.mpr ⟨_, _, hroot, rfl⟩), rfl, .refl _⟩
    · obtain ⟨q, hq, hplace, hle⟩ := h.first _ _ _ _ hx ho hinput hu hreturned
      exact ⟨q, List.mem_append_left _ hq, hplace, hle⟩

/-- Visits in order consume a node in order. -/
theorem consumeAll_visits {input : Node} {waiting : List Visit} {consumed : List Thread}
    (hsorted : waiting.Pairwise Visit.Before)
    (h : consumeAll input (waiting.map Visit.thread) = .ok consumed) :
    ∃ next : List Visit, next.map Visit.thread = consumed ∧ next.Pairwise Visit.Before ∧
      ∀ g, g ∈ next ↔ ∃ w ∈ waiting, w.thread.consume input = .ok (some g.thread) ∧
        g.address = w.address ++ [0] := by
  induction waiting generalizing consumed with
  | nil =>
    cases h
    exact ⟨[], rfl, .nil, by simp⟩
  | cons w waiting ih =>
    obtain ⟨hbefore, hsorted⟩ := List.pairwise_cons.mp hsorted
    obtain ⟨u, others, hu, hothers, rfl⟩ := consumeAll_cons_eq_ok h
    obtain ⟨next, hnext, hnextsorted, hmem⟩ := ih hsorted hothers
    cases u with
    | none =>
      refine ⟨next, hnext, hnextsorted, fun g => ?_⟩
      simp [hmem, hu]
    | some u =>
      refine ⟨⟨w.address ++ [0], u⟩ :: next, congrArg (u :: ·) hnext, ?_, fun g => ?_⟩
      · refine List.pairwise_cons.mpr ⟨fun g hg => ?_, hnextsorted⟩
        obtain ⟨x, hx, -, haddress⟩ := (hmem g).mp hg
        have happend := (hbefore x hx).append [0] [0]
        rw [← haddress] at happend
        exact happend
      · simp only [List.mem_cons, hmem, exists_eq_or_imp]
        apply or_congr_left
        rw [hu, Except.ok.injEq, Option.some.injEq]
        constructor
        · rintro rfl
          exact ⟨rfl, rfl⟩
        · rintro ⟨rfl, haddress⟩
          rw [← haddress]

/-- A visit past a node is by a trail that has not returned either. -/
theorem OnTrail.past {w g : Visit} {input : Node} (h : OnTrail source roots i w x)
    (hinput : source[i]? = some input) (hconsume : w.thread.consume input = .ok (some g.thread))
    (haddress : g.address = w.address ++ [0]) :
    OnTrail source roots (i + 1) g (x.past g.thread) := by
  obtain ⟨hx, hthread, rfl, hreturned⟩ := h
  have hgoes : x.Goes source 0 (x.past g.thread) := by
    apply Trail.Goes.consume hinput
    rw [hthread]
    exact hconsume
  have htrail : trailAt source roots g.address = some (x.past g.thread) := by
    rw [haddress]
    exact trailAt_snoc hx hgoes
  exact ⟨htrail, rfl, rfl, hreturned⟩

/-- Visits past a node come before the fresh ones at the next offset. -/
theorem OnTrail.before_seed {w : Visit} (h : OnTrail source roots i w x) (pattern : Nat) :
    Route.Before (w.address ++ [0]) [i + 1, pattern] := by
  obtain ⟨hx, -, rfl, -⟩ := h
  have hbefore := before_of_trailAt hx (Nat.lt_succ_self x.offset) [pattern]
  have happend := hbefore.append [0] []
  rw [List.append_nil] at happend
  exact happend

section Settle
variable {settled : Settled} {waiting ends : List Visit} {spawned : Set Visit}
  (hroots : Rooted roots) (hproductive : Productive roots) (hdistinct : Distinct source roots)
  (hleads : Leads source roots i visits)
  (hexplored : Explored i (i == source.length) ∅ ∅ settled visits spawned waiting ends)
include hroots hproductive hdistinct hleads hexplored

/-- The end of a pattern that is reported is by the first trail to it. -/
theorem foremost_of_matched (hmatched : settled.matched.Pairwise Thread.Precedes) {m : Thread}
    (hm : m ∈ settled.matched) (hdone : m.Done) :
    ∃ v x, Foremost source roots i v x ∧ v.thread = m := by
  rw [← hexplored.matched] at hm hmatched
  obtain ⟨v, hv, rfl⟩ := List.mem_map.mp hm
  obtain ⟨x, hx, -⟩ := onTrail_of_met hroots hleads hexplored (hexplored.ended v hv)
  refine ⟨v, x, ⟨hx, hdone, fun b y hy hyi hreturned hydone hsame => ?_⟩, rfl⟩
  obtain ⟨w, hw, hplace, hle⟩ :=
    exists_visit_le hroots hproductive hdistinct hleads hexplored hy hyi hreturned
  have hwends := hexplored.done w hw (Thread.done_of_place_eq hplace hydone)
  have hwv : w.thread.SameAttempt v.thread := by
    obtain ⟨hstart, hpattern, -⟩ := Thread.place_eq_iff.mp hplace
    exact ⟨hstart.trans hsame.1, hpattern.trans hsame.2⟩
  have hnodup : (ends.map fun v => (v.thread.start, v.thread.pattern)).Nodup := by
    rw [List.pairwise_map] at hmatched
    refine List.pairwise_map.mpr (hmatched.imp fun hprec heq => ?_)
    obtain ⟨hstart, hpattern⟩ := Prod.mk.inj heq
    unfold Thread.Precedes at hprec
    omega
  obtain rfl := List.inj_on_of_nodup_map hnodup hwends hv (Prod.ext hwv.1 hwv.2)
  exact hle

/-- What waits at an offset, waits there by the first trails. -/
theorem exists_waiting_le (hy : trailAt source roots b = some y) (hyi : y.offset = i)
    (hreturned : y.returned = false) (hwait : y.thread.awaitsInput = true) :
    ∃ w ∈ waiting, w.thread.place = y.thread.place ∧ Route.Le (w.address ++ [0]) (b ++ [0]) := by
  obtain ⟨v, hv, hplace, hle⟩ :=
    exists_visit_le hroots hproductive hdistinct hleads hexplored hy hyi hreturned
  have hvwait : v.thread.awaitsInput = true := by
    rw [← Thread.awaitsInput_place, hplace, Thread.awaitsInput_place, hwait]
  obtain ⟨w, hw, hdigest, hwv⟩ := (hexplored.waits v hv hvwait).resolve_left (by simp)
  obtain ⟨x, hvx, -⟩ := onTrail_of_met hroots hleads hexplored hv
  obtain ⟨z, hwz, -⟩ := onTrail_of_met hroots hleads hexplored (hexplored.met w hw)
  have hwplace : w.thread.place = y.thread.place :=
    (hdistinct hwz.reached hvx.reached hdigest).trans hplace
  obtain ⟨hz, hzthread, hzi, -⟩ := hwz
  refine ⟨w, hw, hwplace, ?_⟩
  rcases eq_or_before_of_le hroots hproductive hz hy (hyi.trans hzi.symm)
    (by rw [hzthread, hwplace]) (hwv.trans hle) with rfl | hbefore
  · exact .refl _
  · exact .inr (hbefore.append [0] [0])

/-- Past a node, a search goes on by the first trails. -/
theorem continues_of_consumeAll {input : Node} (hinput : source[i]? = some input)
    {consumed : List Thread} (hconsumed : consumeAll input settled.waiting = .ok consumed) :
    ∃ next, Continues source roots (i + 1) next ∧
      next.map Visit.thread = (keepNew ∅ consumed).1 := by
  rw [← hexplored.kept] at hconsumed
  obtain ⟨passed, rfl, hsorted, hpassed⟩ := consumeAll_visits hexplored.sorted hconsumed
  obtain ⟨next, hsub, hnext, hfirst⟩ := keepNew_keeps_first ∅ passed hsorted
  have htrail : ∀ g ∈ passed, ∃ x, OnTrail source roots (i + 1) g x ∧ x.left = [] ∧
      ∀ pattern, Route.Before g.address [i + 1, pattern] := by
    intro g hg
    obtain ⟨w, hw, hconsume, haddress⟩ := (hpassed g).mp hg
    obtain ⟨x, hx, -⟩ := onTrail_of_met hroots hleads hexplored (hexplored.met w hw)
    refine ⟨x.past g.thread, hx.past hinput hconsume haddress, rfl, ?_⟩
    rw [haddress]
    exact hx.before_seed
  refine ⟨next, ⟨hsorted.sublist hsub, ?_, ?_, ?_⟩, hnext⟩
  · intro q hq
    obtain ⟨x, -, -, hearly⟩ := htrail q (hsub.subset hq)
    exact hearly
  · intro q hq
    obtain ⟨x, hx, hleft, -⟩ := htrail q (hsub.subset hq)
    exact ⟨x, hx, hleft⟩
  · intro b y input' u hy hyi hinput' hu hreturned
    have hyi : y.offset = i := Nat.succ.inj hyi
    have hwait : y.thread.awaitsInput = true := by
      obtain ⟨condition, hcur, -⟩ := Thread.consume_eq_some hu
      exact Thread.awaitsInput_iff.mpr ⟨condition, hcur⟩
    obtain ⟨w, hw, hplace, hle⟩ :=
      exists_waiting_le hroots hproductive hdistinct hleads hexplored hy hyi hreturned hwait
    rw [hyi] at hinput'
    cases hinput.symm.trans hinput'
    obtain ⟨u', hu', hplace'⟩ := Thread.consume_of_place_eq hu hplace
    have hmem : ⟨w.address ++ [0], u'⟩ ∈ passed := (hpassed _).mpr ⟨w, hw, hu', rfl⟩
    obtain ⟨g, hg, hdigest, hgle⟩ := (hfirst _ hmem).resolve_left (by simp)
    obtain ⟨x, hgx, -⟩ := htrail g (hsub.subset hg)
    obtain ⟨z, huz, -⟩ := htrail _ hmem
    have hgplace := hdistinct hgx.reached huz.reached hdigest
    exact ⟨g, hg, hgplace.trans hplace', hgle.trans hle⟩

end Settle

section Run
variable (hroots : Rooted roots) (hproductive : Productive roots)
  (hdistinct : Distinct source roots)
include hroots hproductive hdistinct

/-- What is reported at an offset is by the first trails, and so is what is alive after its node. -/
theorem advance_foremost {input : Node} {step : Advance} (hinput : source[i]? = some input)
    (hlive : Continues source roots i live) (halive : Alive roots i (live.map Visit.thread))
    (h : advance roots i (live.map Visit.thread) input = .ok step) :
    (∀ m ∈ step.matched, ∃ v x, Foremost source roots i v x ∧ v.thread = m) ∧
      ∃ next, Continues source roots (i + 1) next ∧ next.map Visit.thread = step.live := by
  have hlt : i < source.length := (List.getElem?_eq_some_iff.mp hinput).1
  have hend : (i == source.length) = false := by simpa using hlt.ne
  obtain ⟨settled, consumed, hsettled, hconsumed, rfl⟩ := advance_eq_ok h
  have hordered := halive.ordered_seeds hroots
  obtain ⟨-, hmatched, -⟩ := settle_ordered hroots hordered hsettled
  obtain ⟨-, hdone⟩ := settle_placed hordered.placed hsettled
  have hleads := hlive.leads hlt
  rw [← Visit.map_thread_each [i] (seeds roots i), ← List.map_append, ← hend] at hsettled
  obtain ⟨spawned, waiting, ends, hexplored⟩ := settle_explores hleads.sorted hsettled
  exact ⟨fun m hm => foremost_of_matched hroots hproductive hdistinct hleads hexplored hmatched hm
    (hdone m hm).2, continues_of_consumeAll hroots hproductive hdistinct hleads hexplored hinput
    hconsumed⟩

/-- Every match that a search reports is of the first trail to the end of its attempt there. -/
theorem run_foremost {budget : Option Nat} {rest : List Node} {results : List (Match Nat)}
    (hrest : source.drop i = rest) (hi : i ≤ source.length)
    (hlive : Continues source roots i live) (halive : Alive roots i (live.map Visit.thread))
    (h : run budget source roots i (live.map Visit.thread) rest = .ok results) :
    ∀ m ∈ results, ∃ e v x, Foremost source roots e v x ∧ m = found source e v.thread := by
  induction rest generalizing i live results with
  | nil =>
    obtain ⟨settled, hsettled, rfl⟩ := run_nil_eq_ok h
    have hlast : source.length ≤ i := List.drop_eq_nil_iff.mp hrest
    have hend : (i == source.length) = true := by simpa using Nat.le_antisymm hi hlast
    obtain ⟨-, hmatched, -⟩ := settle_ordered hroots halive.ordered hsettled
    obtain ⟨-, hdone⟩ := settle_placed halive.placed hsettled
    have hleads := hlive.leads_end hlast
    rw [← hend] at hsettled
    obtain ⟨spawned, waiting, ends, hexplored⟩ := settle_explores hleads.sorted hsettled
    intro m hm
    obtain ⟨t, ht, rfl⟩ := List.mem_map.mp hm
    obtain ⟨v, x, hforemost, rfl⟩ := foremost_of_matched hroots hproductive hdistinct hleads
      hexplored hmatched ht (hdone t ht).2
    exact ⟨i, v, x, hforemost, rfl⟩
  | cons input rest ih =>
    have hinput := getElem?_of_drop_eq_cons hrest
    have hdrop := drop_succ_of_drop_eq_cons hrest
    obtain ⟨step, later, hstep, hlater, rfl⟩ := run_cons_eq_ok h
    obtain ⟨-, hnext⟩ := advance_ordered hroots halive hstep
    obtain ⟨hmatched, next, hcontinues, hlive⟩ :=
      advance_foremost hroots hproductive hdistinct hinput hlive halive hstep
    rw [← hlive] at hnext hlater
    intro m hm
    rcases List.mem_append.mp hm with hm | hm
    · obtain ⟨t, ht, rfl⟩ := List.mem_map.mp hm
      obtain ⟨v, x, hforemost, rfl⟩ := hmatched t ht
      exact ⟨i, v, x, hforemost, rfl⟩
    · exact ih hdrop (List.getElem?_eq_some_iff.mp hinput).1 hcontinues hnext hlater m hm

end Run

end Homoicon.Search
