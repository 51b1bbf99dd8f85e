import Homoicon.Proofs.Search.Exploration
import Homoicon.Proofs.Thread.Sound
import Mathlib.Data.List.Basic

/-! What a search reports is what its attempts come to. -/
namespace Homoicon
namespace Search
open Relation (ReflTransGen)
open Thread (Step Done)

variable {source : List Node} {roots : List Frame} {i : Nat} {t u : Thread} {live : List Thread}

theorem consumeAll_cons_eq_ok {input : Node} {rest consumed : List Thread}
    (h : consumeAll input (t :: rest) = .ok consumed) :
    ∃ next others, t.consume input = .ok next ∧ consumeAll input rest = .ok others ∧
      consumed = next.toList ++ others := by
  obtain ⟨next, hnext, h⟩ := bind_eq_ok.mp h
  obtain ⟨others, hothers, h⟩ := bind_eq_ok.mp h
  cases h
  exact ⟨next, others, hnext, hothers, rfl⟩

theorem mem_consumeAll {input : Node} {threads consumed : List Thread}
    (h : consumeAll input threads = .ok consumed) :
    u ∈ consumed ↔ ∃ t ∈ threads, t.consume input = .ok (some u) := by
  induction threads generalizing consumed with
  | nil =>
    cases h
    simp
  | cons t rest ih =>
    obtain ⟨next, others, hnext, hothers, rfl⟩ := consumeAll_cons_eq_ok h
    simp [ih hothers, hnext]

theorem consumeAll_ok {input : Node} {threads : List Thread}
    (h : ∀ t ∈ threads, ∃ next, t.consume input = .ok next) :
    ∃ consumed, consumeAll input threads = .ok consumed := by
  induction threads with
  | nil => exact ⟨_, rfl⟩
  | cons t rest ih =>
    obtain ⟨next, hnext⟩ := h t (.head _)
    obtain ⟨others, hothers⟩ := ih fun u hu => h u (.tail _ hu)
    exact ⟨_, bind_eq_ok.mpr ⟨next, hnext, bind_eq_ok.mpr ⟨others, hothers, rfl⟩⟩⟩

theorem advance_eq_ok {input : Node} {step : Advance} (h : advance roots i live input = .ok step) :
    ∃ settled consumed, settle i false ∅ ∅ (live ++ seeds roots i) = .ok settled ∧
      consumeAll input settled.waiting = .ok consumed ∧
      step = ⟨settled.matched, (keepNew ∅ consumed).1⟩ := by
  obtain ⟨settled, hsettled, h⟩ := bind_eq_ok.mp h
  obtain ⟨consumed, hconsumed, h⟩ := bind_eq_ok.mp h
  cases h
  exact ⟨settled, consumed, hsettled, hconsumed, rfl⟩

/-- A search goes on with the threads that are alive after a node. -/
theorem run_cons_eq_ok {budget : Option Nat} {input : Node} {rest : List Node}
    {results : List (Match Nat)}
    (h : run budget source roots i live (input :: rest) = .ok results) :
    ∃ step later, advance roots i live input = .ok step ∧
      run budget source roots (i + 1) step.live rest = .ok later ∧
      results = step.matched.map (found source i) ++ later := by
  obtain ⟨step, hstep, h⟩ := bind_eq_ok.mp h
  split at h
  · cases h
  · obtain ⟨later, hlater, h⟩ := bind_eq_ok.mp h
    cases h
    exact ⟨step, later, mapError_eq_ok.mp hstep, hlater, rfl⟩

theorem run_nil_eq_ok {budget : Option Nat} {results : List (Match Nat)}
    (h : run budget source roots i live [] = .ok results) :
    ∃ settled, settle i true ∅ ∅ live = .ok settled ∧
      results = settled.matched.map (found source i) := by
  obtain ⟨settled, hsettled, h⟩ := bind_eq_ok.mp h
  cases h
  exact ⟨settled, mapError_eq_ok.mp hsettled, rfl⟩

theorem settle_placed {threads : List Thread} {atEnd : Bool} {seen parked : Digests}
    {settled : Settled} (ht : ∀ t ∈ threads, Placed roots t)
    (h : settle i atEnd seen parked threads = .ok settled) :
    (∀ w ∈ settled.waiting, Placed roots w) ∧ ∀ m ∈ settled.matched, Placed roots m ∧ m.Done := by
  obtain ⟨hwaiting, hmatched⟩ := settle_preserves (fun _ _ h hu => Placed.follows h hu) ht h
  exact ⟨fun w hw => (hwaiting w hw).1, hmatched⟩

section Ok
variable (hroots : Rooted roots)
include hroots

theorem exists_settled {threads : List Thread} (ht : ∀ t ∈ threads, Placed roots t)
    (atEnd : Bool) : ∃ settled, settle i atEnd ∅ ∅ threads = .ok settled := by
  have hmove : ∀ t, Placed roots t → ∃ move, t.move i atEnd = .ok move := fun t h =>
    Thread.move_ok (h.sound hroots) i atEnd
  exact settle_ok (fun _ _ h hu => Placed.follows h hu) hmove ht

theorem placed_live (hlive : ∀ t ∈ live, Placed roots t) :
    ∀ t ∈ live ++ seeds roots i, Placed roots t := by
  intro t ht
  rcases List.mem_append.mp ht with ht | ht
  · exact hlive t ht
  · obtain ⟨pattern, root, hroot, rfl⟩ := mem_seeds.mp ht
    exact placed_seed hroots hroot

theorem advance_ok (hlive : ∀ t ∈ live, Placed roots t) (input : Node) :
    ∃ step, advance roots i live input = .ok step ∧ ∀ t ∈ step.live, Placed roots t := by
  have hplaced := placed_live (i := i) hroots hlive
  obtain ⟨settled, hsettled⟩ := exists_settled hroots hplaced false
  obtain ⟨hwaiting, -⟩ := settle_placed hplaced hsettled
  obtain ⟨consumed, hconsumed⟩ := consumeAll_ok fun t ht =>
    Thread.consume_ok ((hwaiting t ht).sound hroots) input
  refine ⟨_, bind_eq_ok.mpr ⟨settled, hsettled, bind_eq_ok.mpr ⟨consumed, hconsumed, rfl⟩⟩, ?_⟩
  intro t ht
  obtain ⟨u, hu, hconsume⟩ := (mem_consumeAll hconsumed).mp ((keepNew_sublist ∅ _).subset ht)
  exact (hwaiting u hu).consume hconsume

theorem run_ok (source : List Node) (hlive : ∀ t ∈ live, Placed roots t) (rest : List Node) :
    ∃ results, run none source roots i live rest = .ok results := by
  induction rest generalizing i live with
  | nil =>
    obtain ⟨settled, hsettled⟩ := exists_settled hroots hlive true
    exact ⟨_, bind_eq_ok.mpr ⟨settled, mapError_eq_ok.mpr hsettled, rfl⟩⟩
  | cons input rest ih =>
    obtain ⟨step, hstep, hplaced⟩ := advance_ok hroots hlive input
    obtain ⟨later, hlater⟩ := ih hplaced
    refine ⟨step.matched.map (found source i) ++ later,
      bind_eq_ok.mpr ⟨step, mapError_eq_ok.mpr hstep, ?_⟩⟩
    exact bind_eq_ok.mpr ⟨later, hlater, rfl⟩

end Ok

section Sound

theorem Reached.follows (h : Reached source roots i t)
    (hu : t.Follows i (i == source.length) u) : Reached source roots i u :=
  h.step (.move hu)

theorem Reached.placed (h : Reached source roots i t) (hroots : Rooted roots) :
    Placed roots t := by
  refine h.induct (P := fun _ t => Placed roots t) (fun _ _ _ _ hroot => placed_seed hroots hroot)
    fun i t j u ih hstep => ?_
  cases hstep with
  | move h => exact ih.follows h
  | consume _ h => exact ih.consume h

theorem forall_reached_live (hi : i < source.length)
    (hlive : ∀ t ∈ live, Reached source roots i t) :
    ∀ t ∈ live ++ seeds roots i, Reached source roots i t := by
  intro t ht
  rcases List.mem_append.mp ht with ht | ht
  · exact hlive t ht
  · obtain ⟨pattern, root, hroot, rfl⟩ := mem_seeds.mp ht
    exact reached_seed hi hroot

/-- Settled threads are what attempts come to, if those that were settled are. -/
theorem settle_reached {threads : List Thread} {atEnd : Bool} {settled : Settled}
    (hend : (i == source.length) = atEnd) (ht : ∀ t ∈ threads, Reached source roots i t)
    (h : settle i atEnd ∅ ∅ threads = .ok settled) :
    (∀ w ∈ settled.waiting, Reached source roots i w ∧ w.awaitsInput = true) ∧
      ∀ m ∈ settled.matched, Reached source roots i m ∧ m.Done :=
  settle_preserves (fun _ _ h hu => Reached.follows h (hend ▸ hu)) ht h

/-- What is reported at an offset, attempts come to there, and what is alive after its node, they
come to at the next one. -/
theorem advance_sound {input : Node} {step : Advance} (hi : source[i]? = some input)
    (hlive : ∀ t ∈ live, Reached source roots i t) (h : advance roots i live input = .ok step) :
    (∀ t ∈ step.matched, Reached source roots i t ∧ t.Done) ∧
      ∀ t ∈ step.live, Reached source roots (i + 1) t := by
  have hlt : i < source.length := (List.getElem?_eq_some_iff.mp hi).1
  have hend : (i == source.length) = false := by simpa using hlt.ne
  obtain ⟨settled, consumed, hsettled, hconsumed, rfl⟩ := advance_eq_ok h
  obtain ⟨hwaiting, hmatched⟩ :=
    settle_reached hend (forall_reached_live hlt hlive) hsettled
  refine ⟨hmatched, fun t ht => ?_⟩
  obtain ⟨u, hu, hconsume⟩ := (mem_consumeAll hconsumed).mp ((keepNew_sublist ∅ _).subset ht)
  exact (hwaiting u hu).1.step (.consume hi hconsume)

/-- Every match that a search reports is of a thread that an attempt comes to. -/
theorem run_sound {budget : Option Nat} {rest : List Node} {results : List (Match Nat)}
    (hrest : source.drop i = rest) (hi : i ≤ source.length)
    (hlive : ∀ t ∈ live, Reached source roots i t)
    (h : run budget source roots i live rest = .ok results) :
    ∀ m ∈ results, ∃ e t, Reached source roots e t ∧ t.Done ∧ m = found source e t := by
  induction rest generalizing i live results with
  | nil =>
    obtain ⟨settled, hsettled, rfl⟩ := run_nil_eq_ok h
    have hend : (i == source.length) = true := by
      simpa using Nat.le_antisymm hi (List.drop_eq_nil_iff.mp hrest)
    obtain ⟨-, hmatched⟩ := settle_reached hend hlive hsettled
    intro m hm
    obtain ⟨t, ht, rfl⟩ := List.mem_map.mp hm
    exact ⟨i, t, (hmatched t ht).1, (hmatched t ht).2, rfl⟩
  | cons input rest ih =>
    have hinput := getElem?_of_drop_eq_cons hrest
    have hdrop := drop_succ_of_drop_eq_cons hrest
    obtain ⟨step, later, hstep, hlater, rfl⟩ := run_cons_eq_ok h
    obtain ⟨hmatched, hnext⟩ := advance_sound hinput hlive hstep
    intro m hm
    rcases List.mem_append.mp hm with hm | hm
    · obtain ⟨t, ht, rfl⟩ := List.mem_map.mp hm
      exact ⟨i, t, (hmatched t ht).1, (hmatched t ht).2, rfl⟩
    · exact ih hdrop (List.getElem?_eq_some_iff.mp hinput).1 hnext hlater m hm

end Sound

section Complete

/-- A thread that has just consumed the node before an offset. -/
def Arrives (source : List Node) (roots : List Frame) (i : Nat) (t : Thread) : Prop :=
  ∃ j u input, i = j + 1 ∧ Reached source roots j u ∧ source[j]? = some input ∧
    u.consume input = .ok (some t)

/-- Every place that attempts arrive at by consuming a node is held by one of the threads. -/
def Covers (source : List Node) (roots : List Frame) (i : Nat) (live : List Thread) : Prop :=
  ∀ t, Arrives source roots i t → ∃ w ∈ live, w.place = t.place

variable (hdistinct : Distinct source roots)
include hdistinct

/-- A set that holds the threads alive and the new ones, and that no move leads out of, holds all
places that attempts come to at the offset. -/
theorem exists_place_of_visited {atEnd : Bool} {settled : Settled} {V : Set Thread}
    (hend : (i == source.length) = atEnd) (hcovers : Covers source roots i live)
    (hlive : ∀ t ∈ live, t ∈ V) (hseeds : i < source.length → ∀ t ∈ seeds roots i, t ∈ V)
    (hreached : ∀ t ∈ V, Reached source roots i t) (hV : Visited i atEnd ∅ ∅ settled V)
    (h : Reached source roots i t) : ∃ v ∈ V, v.place = t.place := by
  obtain ⟨start, pattern, root, hs, hroot, hpath⟩ := h
  generalize hp : (start, Thread.seed start pattern root) = p at hpath
  generalize hq : (i, t) = q at hpath
  induction hpath generalizing t with
  | refl =>
    cases hp.trans hq.symm
    exact ⟨_, hseeds hs _ (mem_seeds.mpr ⟨pattern, root, hroot, rfl⟩), rfl⟩
  | @tail b c hpath hstep ih =>
    subst hq
    cases hstep with
    | @move _ u _ hu =>
      obtain ⟨v, hv, hplace⟩ := ih rfl
      obtain ⟨w, hw, hwplace⟩ := hu.of_place_eq hplace
      rw [hend] at hw
      rcases hV.follows v hv w hw with h | ⟨x, hx, hdigest⟩
      · simp at h
      · have hwreached := (hreached v hv).follows (hend ▸ hw)
        exact ⟨x, hx, (hdistinct (hreached x hx) hwreached hdigest).trans hwplace⟩
    | @consume j u _ input hinput hconsume =>
      have harrives : Arrives source roots (j + 1) t :=
        ⟨j, u, input, rfl, ⟨start, pattern, root, hs, hroot, hp ▸ hpath⟩, hinput, hconsume⟩
      obtain ⟨w, hw, hplace⟩ := hcovers t harrives
      exact ⟨w, hlive w hw, hplace⟩

/-- All that attempts come to at an offset is reported there or alive after its node. -/
theorem advance_complete {input : Node} {step : Advance} (hi : source[i]? = some input)
    (hlive : ∀ t ∈ live, Reached source roots i t) (hcovers : Covers source roots i live)
    (h : advance roots i live input = .ok step) :
    (∀ t, Reached source roots i t → t.Done → ∃ m ∈ step.matched, m.place = t.place) ∧
      Covers source roots (i + 1) step.live := by
  have hlt : i < source.length := (List.getElem?_eq_some_iff.mp hi).1
  have hend : (i == source.length) = false := by simpa using hlt.ne
  obtain ⟨-, hstep⟩ := advance_sound hi hlive h
  obtain ⟨settled, consumed, hsettled, hconsumed, rfl⟩ := advance_eq_ok h
  obtain ⟨V, hsub, hall, hV⟩ := settle_visits
    (fun _ _ h hu => Reached.follows h (hend ▸ hu)) (forall_reached_live hlt hlive) hsettled
  have hplace : ∀ t, Reached source roots i t → ∃ v ∈ V, v.place = t.place := fun t =>
    exists_place_of_visited hdistinct hend hcovers (fun t ht => hsub t (List.mem_append_left _ ht))
      (fun _ t ht => hsub t (List.mem_append_right _ ht)) hall hV
  constructor
  · intro t ht hdone
    obtain ⟨v, hv, heq⟩ := hplace t ht
    exact ⟨v, hV.matched v hv (Thread.done_of_place_eq heq hdone), heq⟩
  · rintro t ⟨j, u, input', hj, hu, hinput, hconsume⟩
    obtain rfl : i = j := Nat.succ_injective hj
    cases hi.symm.trans hinput
    obtain ⟨v, hv, hvplace⟩ := hplace u hu
    have hwait : v.awaitsInput = true := by
      obtain ⟨condition, hcur, -⟩ := Thread.consume_eq_some hconsume
      rw [Thread.eq_of_place_eq hvplace]
      exact Thread.awaitsInput_iff.mpr ⟨condition, hcur⟩
    rcases hV.waits v hv hwait with hw | ⟨w, hw, hdigest⟩
    · simp at hw
    · obtain ⟨hwreached, -⟩ :=
        (settle_reached hend (forall_reached_live hlt hlive) hsettled).1 w hw
      have hwplace := (hdistinct hwreached (hall v hv) hdigest).trans hvplace
      -- the thread that waits there consumes the node too, and so does the one kept in its place
      obtain ⟨x, hx, hxplace⟩ := Thread.consume_of_place_eq hconsume hwplace
      have hmem := (mem_consumeAll hconsumed).mpr ⟨w, hw, hx⟩
      have hxreached := hwreached.step (.consume hinput hx)
      have hkept : (keepNew ∅ consumed).2.contains x.digest = true := contains_keepNew_of_mem hmem
      rcases contains_keepNew.mp hkept with h | ⟨y, hy, hd⟩
      · simp at h
      · exact ⟨y, hy, (hdistinct (hstep y hy) hxreached hd).trans hxplace⟩

/-- Every end of a pattern that attempts come to is reported. -/
theorem run_complete {budget : Option Nat} {rest : List Node} {results : List (Match Nat)}
    (hrest : source.drop i = rest) (hi : i ≤ source.length)
    (hlive : ∀ t ∈ live, Reached source roots i t) (hcovers : Covers source roots i live)
    (h : run budget source roots i live rest = .ok results) {e : Nat} (he : i ≤ e)
    (ht : Reached source roots e t) (hdone : t.Done) :
    ∃ m ∈ results, m.payload = t.pattern ∧ m.start = t.start ∧ m.stop = e := by
  induction rest generalizing i live results with
  | nil =>
    obtain ⟨settled, hsettled, rfl⟩ := run_nil_eq_ok h
    have hlast : i = source.length := Nat.le_antisymm hi (List.drop_eq_nil_iff.mp hrest)
    obtain rfl : e = i := Nat.le_antisymm (hlast ▸ ht.offset_le) he
    have hend : (e == source.length) = true := by simpa using hlast
    obtain ⟨V, hsub, hall, hV⟩ :=
      settle_visits (fun _ _ h hu => Reached.follows h (hend ▸ hu)) hlive hsettled
    obtain ⟨v, hv, hplace⟩ := exists_place_of_visited hdistinct hend hcovers hsub
      (fun hlt => absurd hlt hlast.not_lt) hall hV ht
    have hm := hV.matched v hv (Thread.done_of_place_eq hplace hdone)
    rw [Thread.eq_of_place_eq hplace] at hm
    exact ⟨_, List.mem_map_of_mem hm, rfl, rfl, rfl⟩
  | cons input rest ih =>
    have hinput := getElem?_of_drop_eq_cons hrest
    have hdrop := drop_succ_of_drop_eq_cons hrest
    obtain ⟨step, later, hstep, hlater, rfl⟩ := run_cons_eq_ok h
    obtain ⟨-, hnext⟩ := advance_sound hinput hlive hstep
    obtain ⟨hmatched, hcovers⟩ := advance_complete hdistinct hinput hlive hcovers hstep
    rcases he.eq_or_lt with rfl | he
    · obtain ⟨m, hm, hplace⟩ := hmatched t ht hdone
      rw [Thread.eq_of_place_eq hplace] at hm
      exact ⟨_, List.mem_append_left _ (List.mem_map_of_mem hm), rfl, rfl, rfl⟩
    · obtain ⟨m, hm, hfound⟩ := ih hdrop (List.getElem?_eq_some_iff.mp hinput).1 hnext hcovers
        hlater he
      exact ⟨m, List.mem_append_right _ hm, hfound⟩

end Complete
end Search

/-- What a search for built patterns reports, by what the run of their roots does. -/
theorem search_eq_ok {α : Type} {budget : Option Nat} {source : List Node}
    {patterns : List (Blueprint × α)} {marks : Nat → Nat → UInt64} {results : List (Match α)} :
    search budget source (patterns.map fun p => (p.1.node, p.2)) marks = .ok results ↔
      ∃ found, Search.run budget source
          (Search.rootFrames marks (patterns.map fun p => p.1.node)) 0 [] source = .ok found ∧
        results = found.filterMap fun m =>
          patterns[m.payload]?.map fun p => { m with payload := p.2 } := by
  unfold search
  rw [bind_eq_ok, List.map_map]
  refine exists_congr fun found => and_congr Iff.rfl ?_
  simp only [List.getElem?_map, Option.map_map, Function.comp_def, Except.ok.injEq]
  exact eq_comm

theorem exists_fin_matches {n : Nat} {results : List (Match Nat)}
    (h : ∀ m ∈ results, m.payload < n) :
    ∃ found : List (Match (Fin n)),
      results = found.map fun m => { m with payload := m.payload.val } := by
  induction results with
  | nil => exact ⟨[], rfl⟩
  | cons m results ih =>
    obtain ⟨hm, hresults⟩ := List.forall_mem_cons.mp h
    obtain ⟨found, rfl⟩ := ih hresults
    exact ⟨{ m with payload := ⟨m.payload, hm⟩ } :: found, rfl⟩

theorem exists_search_eq_ok {α : Type} {budget : Option Nat} {source : List Node}
    {patterns : List (Blueprint × α)} {marks : Nat → Nat → UInt64} {results : List (Match Nat)}
    (h : Search.run budget source (Search.rootFrames marks (patterns.map fun p => p.1.node)) 0 []
      source = .ok results)
    (hpayload : ∀ m ∈ results, m.payload < patterns.length) :
    ∃ found : List (Match (Fin patterns.length)),
      results = (found.map fun m => { m with payload := m.payload.val }) ∧
      search budget source (patterns.map fun p => (p.1.node, p.2)) marks =
        .ok (found.map fun m => { m with payload := (patterns.get m.payload).2 }) := by
  obtain ⟨found, rfl⟩ := exists_fin_matches hpayload
  refine ⟨found, rfl, search_eq_ok.mpr ⟨_, h, ?_⟩⟩
  rw [List.filterMap_map, ← List.filterMap_eq_map]
  apply List.filterMap_congr
  intro m _
  have hpattern : patterns[m.payload.val]? = some (patterns.get m.payload) :=
    List.getElem?_eq_getElem m.payload.isLt
  simp only [Function.comp_apply, hpattern, Option.map_some]

end Homoicon
