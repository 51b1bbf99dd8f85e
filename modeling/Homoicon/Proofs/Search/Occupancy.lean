import Homoicon.Proofs.Search.Matching
import Homoicon.Proofs.Search.Termination

/-! How many threads a search keeps alive: no more than there are places where threads wait, and no
fewer than there are attempts that it goes on with. -/
namespace Homoicon

namespace Blueprint
open Pattern (ofNode ofNodes)

variable {marks : Nat → UInt64}

mutual

/-- How many instructions of a pattern match a node, by its kind or by its value. -/
def tests : Blueprint → Nat
  | sequence items => testsAll items
  | alternatives items => testsAll items
  | optional items _ => testsAll items
  | repeated items _ => testsAll items
  | anchor _ => 0
  | matchType _ => 1
  | matchValue _ => 1
  | capture _ inner => tests inner

def testsAll : List Blueprint → Nat
  | [] => 0
  | item :: items => tests item + testsAll items

end

mutual

theorem tests_ofNode (b : Blueprint) (serial : Nat) :
    (ofNode marks serial b.node).tests = b.tests := by
  cases b with
  | sequence items => exact testsAll_ofNodes items _
  | alternatives items => exact testsAll_ofNodes items _
  | optional items greedy => exact testsAll_ofNodes items _
  | repeated items greedy => exact testsAll_ofNodes items _
  | anchor start => rfl
  | matchType kind => rfl
  | matchValue target => rfl
  | capture name inner =>
    rw [ofNode_capture]
    exact tests_ofNode inner _

theorem testsAll_ofNodes (bs : List Blueprint) (serial : Nat) :
    Pattern.testsAll (ofNodes marks serial (nodes bs)) = testsAll bs := by
  cases bs with
  | nil => rfl
  | cons b bs =>
    have hb := tests_ofNode b serial
    have hbs := testsAll_ofNodes bs (serial + b.node.size)
    rw [nodes, ofNodes, Pattern.testsAll, testsAll, hb, hbs]

end

theorem testsAll_rootFrame (b : Blueprint) (marks : Nat → UInt64) :
    Pattern.testsAll (Search.rootFrame marks b.node).items = b.tests := by
  obtain ⟨mark, hframe⟩ := b.rootFrame_node marks
  rw [hframe, testsAll_ofNodes]
  cases b <;> rfl

end Blueprint

/-- Threads that settling leaves waiting are of different words, none of which was parked before. -/
theorem settle_apart {index : Nat} {atEnd : Bool} {seen parked : Digests} {threads : List Thread}
    {settled : Settled} (h : settle index atEnd seen parked threads = .ok settled) :
    (∀ w ∈ settled.waiting, ¬parked.contains w.digest = true) ∧
      settled.waiting.Pairwise fun t u => t.digest ≠ u.digest := by
  replace h := settles_of_settle h
  induction h with
  | nil => exact ⟨List.forall_mem_nil _, .nil⟩
  | dropped _ _ _ ih => exact ih
  | waiting _ hp _ ih =>
    obtain ⟨hnew, hapart⟩ := ih
    simp only [Digests.contains_insert_iff, not_or] at hnew
    exact ⟨List.forall_mem_cons.mpr ⟨hp, fun w hw => (hnew w hw).2⟩,
      List.pairwise_cons.mpr ⟨fun w hw => (hnew w hw).1, hapart⟩⟩
  | matched _ _ _ ih => exact ih
  | moved _ _ _ ih => exact ih

namespace Search
variable {source : List Node} {roots : List Frame} {i : Nat} {live : List Thread}

/-- No more threads accept a node than wait for it. -/
theorem length_consumeAll_le {input : Node} {threads consumed : List Thread}
    (h : consumeAll input threads = .ok consumed) : consumed.length ≤ threads.length := by
  induction threads generalizing consumed with
  | nil =>
    cases h
    exact Nat.le_refl 0
  | cons t rest ih =>
    obtain ⟨next, others, hnext, hothers, rfl⟩ := consumeAll_cons_eq_ok h
    have hrest := ih hothers
    have hone : next.toList.length ≤ 1 := by cases next <;> simp
    rw [List.length_append, List.length_cons]
    omega

section Rooted
variable (hroots : Rooted roots)
include hroots

/-- Each waiting thread has a place of its own. -/
theorem length_waiting_le {starts : Nat} {atEnd : Bool} {threads : List Thread} {settled : Settled}
    (ht : ∀ t ∈ threads, Placed roots t ∧ t.start < starts)
    (h : settle i atEnd ∅ ∅ threads = .ok settled) :
    settled.waiting.length ≤ starts * (roots.map fun root => Pattern.testsAll root.items).sum := by
  obtain ⟨hwaiting, -⟩ := settle_preserves (P := fun t => Placed roots t ∧ t.start < starts)
    (fun t u ht hu => ⟨ht.1.follows hu, hu.start_eq ▸ ht.2⟩) ht h
  obtain ⟨-, hapart⟩ := settle_apart h
  have hnodup : (settled.waiting.map Thread.place).Nodup :=
    List.pairwise_map.mpr (hapart.imp fun hne heq => hne (Thread.digest_eq_of_place_eq heq))
  have hsubset : settled.waiting.map Thread.place ⊆
      (places roots starts).filter Thread.awaitsInput := by
    intro p hp
    obtain ⟨w, hw, rfl⟩ := List.mem_map.mp hp
    obtain ⟨⟨hplaced, hstart⟩, hawaits⟩ := hwaiting w hw
    exact List.mem_filter.mpr ⟨(mem_places_iff hroots).mpr ⟨hplaced, hstart, rfl⟩, hawaits⟩
  have hlength := (List.subperm_of_subset hnodup hsubset).length_le
  rwa [List.length_map, ← List.countP_eq_length_filter, countP_places hroots] at hlength

theorem length_live_le (hlive : Alive roots i live) {input : Node} {step : Advance}
    (h : advance roots i live input = .ok step) :
    step.live.length ≤ (i + 1) * (roots.map fun root => Pattern.testsAll root.items).sum := by
  obtain ⟨settled, consumed, hsettled, hconsumed, rfl⟩ := advance_eq_ok h
  have hthreads : ∀ t ∈ live ++ seeds roots i, Placed roots t ∧ t.start < i + 1 := by
    intro t ht
    refine ⟨placed_live hroots hlive.placed t ht, ?_⟩
    rcases List.mem_append.mp ht with ht | ht
    · exact Nat.lt_succ_of_lt (hlive.early t ht)
    · obtain ⟨pattern, root, -, rfl⟩ := mem_seeds.mp ht
      exact Nat.lt_succ_self i
  calc (keepNew ∅ consumed).1.length
      ≤ consumed.length := (keepNew_sublist ∅ consumed).length_le
    _ ≤ settled.waiting.length := length_consumeAll_le hconsumed
    _ ≤ _ := length_waiting_le hroots hthreads hsettled

theorem length_liveAt_le (hi : i < source.length) (h : liveAt source roots (i + 1) = .ok live) :
    live.length ≤ (i + 1) * (roots.map fun root => Pattern.testsAll root.items).sum := by
  obtain ⟨before, hbefore, halive⟩ := exists_liveAt hroots hi.le
  obtain ⟨step, hstep, -⟩ := advance_ok hroots halive.placed source[i]
  have hafter := liveAt_succ (List.getElem?_eq_getElem hi) hbefore hstep
  cases h.symm.trans hafter
  exact length_live_le hroots halive hstep

end Rooted

section Attempts
variable {j : Nat} {t : Thread}

/-- An attempt that goes on past an offset arrives there. -/
theorem exists_arrives_of_reached (ht : Reached source roots j t) (hstart : t.start < i)
    (hij : i ≤ j) :
    ∃ u, Arrives source roots i u ∧ u.start = t.start ∧ u.pattern = t.pattern := by
  have hall := ht.induct (P := fun j t => Reached source roots j t ∧ (t.start < i → i ≤ j →
    ∃ u, Arrives source roots i u ∧ u.start = t.start ∧ u.pattern = t.pattern)) ?_ ?_
  · exact hall.2 hstart hij
  · intro start pattern root hs hroot
    exact ⟨reached_seed hs hroot, fun hlt hle => absurd hle (Nat.not_le_of_lt hlt)⟩
  · intro j t k u ⟨hreached, ih⟩ hstep
    refine ⟨hreached.step hstep, fun hlt hle => ?_⟩
    have hsame := hstep
    rw [hstep.start_eq] at hlt ⊢
    rw [hstep.pattern_eq]
    cases hstep with
    | move _ => exact ih hlt hle
    | consume hinput hconsume =>
      rcases Nat.lt_or_eq_of_le hle with hbefore | rfl
      · exact ih hlt (Nat.le_of_lt_succ hbefore)
      · exact ⟨u, ⟨j, t, _, rfl, hreached, hinput, hconsume⟩, hsame.start_eq, hsame.pattern_eq⟩

variable (hdistinct : Distinct source roots)
include hdistinct

/-- A search that no budget stops holds every place that attempts arrive at, and no others. -/
theorem liveAt_complete (hi : i ≤ source.length) (h : liveAt source roots i = .ok live) :
    (∀ t ∈ live, Reached source roots i t) ∧ Covers source roots i live := by
  induction i generalizing live with
  | zero =>
    cases h
    exact ⟨List.forall_mem_nil _, fun t ⟨j, _, _, hj, _⟩ => by omega⟩
  | succ i ih =>
    have hinput : source[i]? = some source[i] := List.getElem?_eq_getElem hi
    obtain ⟨before, hbefore, h⟩ := bind_eq_ok.mp h
    rw [hinput] at h
    obtain ⟨step, hstep, h⟩ := bind_eq_ok.mp h
    cases h
    obtain ⟨hreached, hcovers⟩ := ih (Nat.le_of_succ_le hi) hbefore
    obtain ⟨-, hsound⟩ := advance_sound hinput hreached hstep
    obtain ⟨-, hcomplete⟩ := advance_complete hdistinct hinput hreached hcovers hstep
    exact ⟨hsound, hcomplete⟩

/-- An attempt that goes on past an offset keeps a thread alive there. -/
theorem exists_live_of_reached (h : liveAt source roots i = .ok live)
    (ht : Reached source roots j t) (hstart : t.start < i) (hij : i ≤ j) :
    ∃ w ∈ live, w.start = t.start ∧ w.pattern = t.pattern := by
  obtain ⟨u, hu, hustart, hupattern⟩ := exists_arrives_of_reached ht hstart hij
  obtain ⟨w, hw, hplace⟩ := (liveAt_complete hdistinct (hij.trans ht.offset_le) h).2 u hu
  have hwstart : w.place.start = u.place.start := by rw [hplace]
  have hwpattern : w.place.pattern = u.place.pattern := by rw [hplace]
  exact ⟨w, hw, hwstart.trans hustart, hwpattern.trans hupattern⟩

/-- At least as many threads are alive at an offset as attempts go on past it. -/
theorem length_le_length_liveAt (h : liveAt source roots i = .ok live)
    {attempts : List (Nat × Nat)} (hnodup : attempts.Nodup)
    (hreached : ∀ a ∈ attempts, a.1 < i ∧ ∃ j t, i ≤ j ∧ Reached source roots j t ∧
      t.start = a.1 ∧ t.pattern = a.2) : attempts.length ≤ live.length := by
  have hsubset : attempts ⊆ live.map fun w => (w.start, w.pattern) := by
    intro a ha
    obtain ⟨hlt, j, t, hij, ht, hstart, hpattern⟩ := hreached a ha
    obtain ⟨w, hw, hwstart, hwpattern⟩ :=
      exists_live_of_reached hdistinct h ht (hstart ▸ hlt) hij
    refine List.mem_map.mpr ⟨w, hw, ?_⟩
    rw [hwstart, hwpattern, hstart, hpattern]
  have hlength := (List.subperm_of_subset hnodup hsubset).length_le
  rwa [List.length_map] at hlength

end Attempts
end Search

theorem sum_tests_rootFrames {α : Type} (patterns : List (Blueprint × α))
    (marks : Nat → Nat → UInt64) :
    ((Search.rootFrames marks (patterns.map fun p => p.1.node)).map fun root =>
      Pattern.testsAll root.items).sum = (patterns.map fun p => p.1.tests).sum := by
  refine congrArg List.sum (List.ext_getElem? fun n => ?_)
  rw [List.getElem?_map, Search.getElem?_rootFrames, Option.map_map, List.getElem?_map]
  exact Option.map_congr fun p _ => p.1.testsAll_rootFrame (marks n)

/-- After the node at an offset, a search for built patterns keeps no more threads alive than there
are offsets up to there, times the instructions of the patterns that match a node. A budget of as
many for all nodes is never exceeded. -/
theorem search_live_bounded {α : Type} (source : List Node) (patterns : List (Blueprint × α))
    (marks : Nat → Nat → UInt64) :
    let tests := (patterns.map fun p => p.1.tests).sum
    (∀ i < source.length, ∃ live,
      Search.liveAt source (Search.rootFrames marks (patterns.map fun p => p.1.node)) (i + 1) =
          .ok live ∧
        live.length ≤ (i + 1) * tests) ∧
      ∀ limit, source.length * tests ≤ limit →
        ∃ found : List (Match (Fin patterns.length)),
          search (some limit) source (patterns.map fun p => (p.1.node, p.2)) marks =
            .ok (found.map fun m => { m with payload := (patterns.get m.payload).2 }) := by
  intro tests
  have hroots := Search.rooted_blueprints patterns marks
  have hbound : ∀ i < source.length, ∀ live,
      Search.liveAt source (Search.rootFrames marks (patterns.map fun p => p.1.node)) (i + 1) =
          .ok live →
        live.length ≤ (i + 1) * tests := by
    intro i hi live hlive
    have hlength := Search.length_liveAt_le hroots hi hlive
    rwa [sum_tests_rootFrames] at hlength
  refine ⟨fun i hi => ?_, fun limit hlimit => ?_⟩
  · obtain ⟨live, hlive, -⟩ := Search.exists_liveAt hroots (Nat.succ_le_of_lt hi)
    exact ⟨live, hlive, hbound i hi live hlive⟩
  · rcases search_ends source patterns marks (some limit) with hfound | hstop
    · exact hfound
    · obtain ⟨_, offset, after, hbudget, hoffset, hafter, hlt, -⟩ := hstop
      obtain rfl := Option.some.inj hbudget
      have hlength := hbound offset hoffset after hafter
      have hmul : (offset + 1) * tests ≤ source.length * tests := Nat.mul_le_mul_right tests hoffset
      omega

theorem search_nameRuns_live_bounded :
    (1 < Search.twoNames.length ∧ ∃ live,
      Search.liveAt Search.twoNames
          (Search.rootFrames Search.serialMarks [Search.nameRuns.node]) 2 = .ok live ∧
        live.length ≤ 2) ∧
      Search.twoNames.length * Search.nameRuns.tests ≤ 2 ∧ ∃ found : List (Match (Fin 1)),
        search (some 2) Search.twoNames [(Search.nameRuns.node, ())] =
          .ok (found.map fun m => { m with payload := () }) := by
  have hi : 1 < Search.twoNames.length := Nat.lt_succ_self 1
  have hlimit : Search.twoNames.length * Search.nameRuns.tests ≤ 2 := Nat.le_refl 2
  obtain ⟨hlive, hbudget⟩ := search_live_bounded Search.twoNames [(Search.nameRuns, ())]
    Search.serialMarks
  exact ⟨⟨hi, hlive 1 hi⟩, hlimit, hbudget 2 hlimit⟩

end Homoicon
