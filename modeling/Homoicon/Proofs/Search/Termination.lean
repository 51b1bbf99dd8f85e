import Homoicon.Proofs.Search.Order
import Homoicon.Proofs.Thread.Places
import Mathlib.Data.Finset.Card
import Mathlib.Data.Finset.Filter

/-! Searches for built patterns come to an end, and settling does within a bound. -/
namespace Homoicon

namespace Digests
variable {seen : Digests} {words : Finset UInt64} {word : UInt64}

def unmet (seen : Digests) (words : Finset UInt64) : Nat :=
  (words.filter fun word => seen.contains word = false).card

theorem unmet_empty (words : Finset UInt64) : unmet ∅ words = words.card := by
  simp [unmet]

theorem unmet_insert (hnew : seen.contains word = false) (hword : word ∈ words) :
    unmet (seen.insert word) words + 1 = unmet seen words := by
  have herase : (words.filter fun w => (seen.insert word).contains w = false) =
      (words.filter fun w => seen.contains w = false).erase word := by
    ext w
    simp only [Finset.mem_filter, Finset.mem_erase, ← Bool.not_eq_true, contains_insert_iff, not_or]
    rw [and_left_comm, ne_comm]
  rw [unmet, herase]
  exact Finset.card_erase_add_one (Finset.mem_filter.mpr ⟨hword, hnew⟩)

end Digests

theorem length_keepNew_add_unmet {seen : Digests} {words : Finset UInt64} {threads : List Thread}
    (h : ∀ t ∈ threads, t.digest ∈ words) :
    (keepNew seen threads).1.length + (keepNew seen threads).2.unmet words = seen.unmet words := by
  induction threads generalizing seen with
  | nil => exact Nat.zero_add _
  | cons t threads ih =>
    obtain ⟨ht, hthreads⟩ := List.forall_mem_cons.mp h
    cases hseen : seen.contains t.digest with
    | true =>
      rw [keepNew_cons_of_contains hseen]
      exact ih hthreads
    | false =>
      rw [keepNew_cons_of_not_contains hseen]
      have hrest := @ih (seen.insert t.digest) hthreads
      have hinsert := Digests.unmet_insert hseen ht
      rw [List.length_cons]
      dsimp only
      omega

/-- Settling that gives up before it takes up one thread more than `limit`. -/
def settleWithin (index : Nat) (atEnd : Bool) :
    Nat → Digests → Digests → List Thread → Option (Except PatternFault Settled)
  | _, _, _, [] => some (.ok ⟨[], []⟩)
  | 0, _, _, _ :: _ => none
  | limit + 1, seen, parked, t :: rest =>
    if t.awaitsInput then
      if parked.contains t.digest then settleWithin index atEnd limit seen parked rest
      else
        (settleWithin index atEnd limit seen (parked.insert t.digest) rest).map fun result => do
          let settled ← result
          .ok { settled with waiting := t :: settled.waiting }
    else
      match t.move index atEnd with
      | .error fault => some (.error fault)
      | .ok .matched =>
        (settleWithin index atEnd limit seen parked rest).map fun result => do
          let settled ← result
          .ok { settled with matched := t :: settled.matched }
      | .ok (.threads next) =>
        settleWithin index atEnd limit (keepNew seen next).2 parked ((keepNew seen next).1 ++ rest)

theorem exists_limit {t : Thread} {rest : List Thread} {unmet limit : Nat}
    (h : (t :: rest).length + unmet ≤ limit) :
    ∃ later, limit = later + 1 ∧ rest.length + unmet ≤ later := by
  rw [List.length_cons] at h
  exact ⟨limit - 1, by omega, by omega⟩

/-- Settling takes up the threads that it is given, and at most one more for each word that has not
been met. -/
theorem settleWithin_eq_settle {index : Nat} {atEnd : Bool} {seen parked : Digests}
    {threads : List Thread} {words : Finset UInt64} {P : Thread → Prop} {limit : Nat}
    (hP : ∀ t u, P t → t.Follows index atEnd u → P u) (hwords : ∀ t, P t → t.digest ∈ words)
    (ht : ∀ t ∈ threads, P t) (hlimit : threads.length + seen.unmet words ≤ limit) :
    settleWithin index atEnd limit seen parked threads =
      some (settle index atEnd seen parked threads) := by
  fun_induction settle index atEnd seen parked threads generalizing limit with
  | case1 => rw [settleWithin]
  | case2 seen parked t rest hw hp ih =>
    obtain ⟨later, rfl, hlater⟩ := exists_limit hlimit
    rw [settleWithin, if_pos hw, if_pos hp]
    exact ih (fun u hu => ht u (.tail _ hu)) hlater
  | case3 seen parked t rest hw hp ih =>
    obtain ⟨later, rfl, hlater⟩ := exists_limit hlimit
    rw [settleWithin, if_pos hw, if_neg hp, ih (fun u hu => ht u (.tail _ hu)) hlater]
    rfl
  | case4 seen parked t rest hw fault hm =>
    obtain ⟨later, rfl, -⟩ := exists_limit hlimit
    rw [settleWithin, if_neg hw, hm]
  | case5 seen parked t rest hw hm ih =>
    obtain ⟨later, rfl, hlater⟩ := exists_limit hlimit
    rw [settleWithin, if_neg hw, hm]
    dsimp only
    rw [ih (fun u hu => ht u (.tail _ hu)) hlater]
    rfl
  | case6 seen parked t rest hw next hm ih =>
    -- the threads that join the queue are paid for by the words that they use up
    obtain ⟨later, rfl, hlater⟩ := exists_limit hlimit
    have hnext : ∀ u ∈ next, P u := fun u hu =>
      hP t u (ht t (.head _)) (Thread.follows_of_mem_move (by simpa using hw) hm hu)
    have hkept := @length_keepNew_add_unmet seen words next fun u hu => hwords u (hnext u hu)
    rw [settleWithin, if_neg hw, hm]
    exact ih (forall_mem_kept hP ht hw hm) (by rw [List.length_append]; omega)

namespace Search
variable {source : List Node} {roots : List Frame} {i : Nat} {live : List Thread}

/-- The words of the places in all patterns, of the attempts from as many offsets as there are
starts. -/
def words (roots : List Frame) (starts : Nat) : Finset UInt64 :=
  ((places roots starts).map Thread.digest).toFinset

/-- The threads that are alive before an offset, of a search that no budget stops. -/
def liveAt (source : List Node) (roots : List Frame) : Nat → Except PatternFault (List Thread)
  | 0 => .ok []
  | i + 1 => do
    let live ← liveAt source roots i
    match source[i]? with
    | none => .ok []
    | some input => do
      let step ← advance roots i live input
      .ok step.live

/-- The threads that are settled at an offset: those that are alive and, where there is a node, new
ones. -/
def queue (source : List Node) (roots : List Frame) (i : Nat) (live : List Thread) : List Thread :=
  if i < source.length then live ++ seeds roots i else live

theorem liveAt_succ {input : Node} {step : Advance} (hi : source[i]? = some input)
    (hlive : liveAt source roots i = .ok live) (hstep : advance roots i live input = .ok step) :
    liveAt source roots (i + 1) = .ok step.live := by
  rw [liveAt, hlive, ok_bind, hi]
  dsimp only
  rw [hstep, ok_bind]

theorem exceeds_iff {budget : Option Nat} {states : Nat} :
    exceeds budget states = true ↔ ∃ limit, budget = some limit ∧ limit < states := by
  cases budget <;> simp [exceeds]

theorem run_cons_of_advance {budget : Option Nat} {input : Node} {step : Advance}
    (rest : List Node) (h : advance roots i live input = .ok step) :
    run budget source roots i live (input :: rest) =
      if exceeds budget step.live.length then .error (.budgetExceeded i step.live.length)
      else run budget source roots (i + 1) step.live rest >>= fun later =>
        .ok (step.matched.map (found source i) ++ later) := by
  rw [run, h]
  rfl

theorem mem_queue {t : Thread} (h : t ∈ queue source roots i live) :
    t ∈ live ∨ i < source.length ∧
      ∃ (pattern : Nat) (root : Frame), roots[pattern]? = some root ∧ t = .seed i pattern root := by
  unfold queue at h
  split at h
  · next hi => exact (List.mem_append.mp h).imp_right fun h => ⟨hi, mem_seeds.mp h⟩
  · exact .inl h

section Rooted
variable (hroots : Rooted roots)
include hroots

theorem digest_mem_words {t : Thread} {starts : Nat} (h : Placed roots t)
    (hstart : t.start < starts) : t.digest ∈ words roots starts := by
  have hplace : t.place ∈ places roots starts := (mem_places_iff hroots).mpr ⟨h, hstart, rfl⟩
  exact List.mem_toFinset.mpr (List.mem_map.mpr ⟨t.place, hplace, t.digest_place⟩)

theorem exists_liveAt (hi : i ≤ source.length) :
    ∃ live, liveAt source roots i = .ok live ∧ Alive roots i live := by
  induction i with
  | zero => exact ⟨[], rfl, alive_nil roots⟩
  | succ i ih =>
    obtain ⟨live, hat, hlive⟩ := ih (Nat.le_of_succ_le hi)
    have hinput : source[i]? = some source[i] := List.getElem?_eq_getElem hi
    obtain ⟨step, hstep, -⟩ := advance_ok hroots hlive.placed source[i]
    obtain ⟨-, hnext⟩ := advance_ordered hroots hlive hstep
    exact ⟨step.live, liveAt_succ hinput hat hstep, hnext⟩

/-- A run comes to its end, or stops where more threads are alive than its budget allows. -/
theorem run_ends (budget : Option Nat) (rest : List Node) (hrest : source.drop i = rest)
    (hlive : Alive roots i live) (hat : liveAt source roots i = .ok live) :
    (∃ results, run budget source roots i live rest = .ok results) ∨
      ∃ limit offset after, budget = some limit ∧ offset < source.length ∧
        liveAt source roots (offset + 1) = .ok after ∧ limit < after.length ∧
        run budget source roots i live rest = .error (.budgetExceeded offset after.length) := by
  induction rest generalizing i live with
  | nil =>
    obtain ⟨settled, hsettled⟩ := exists_settled hroots hlive.placed true
    exact .inl ⟨_, bind_eq_ok.mpr ⟨settled, mapError_eq_ok.mpr hsettled, rfl⟩⟩
  | cons input rest ih =>
    have hinput := getElem?_of_drop_eq_cons hrest
    obtain ⟨step, hstep, -⟩ := advance_ok hroots hlive.placed input
    obtain ⟨-, hnext⟩ := advance_ordered hroots hlive hstep
    have hafter := liveAt_succ hinput hat hstep
    rw [run_cons_of_advance rest hstep]
    by_cases hexceeds : exceeds budget step.live.length = true
    · obtain ⟨limit, hbudget, hlt⟩ := exceeds_iff.mp hexceeds
      have hi := (List.getElem?_eq_some_iff.mp hinput).1
      rw [if_pos hexceeds]
      exact .inr ⟨limit, i, step.live, hbudget, hi, hafter, hlt, rfl⟩
    · rw [if_neg hexceeds]
      rcases ih (drop_succ_of_drop_eq_cons hrest) hnext hafter with ⟨later, hlater⟩ | hstop
      · exact .inl ⟨step.matched.map (found source i) ++ later,
          bind_eq_ok.mpr ⟨later, hlater, rfl⟩⟩
      · obtain ⟨limit, offset, after, hbudget, hoffset, hlast, hlt, herror⟩ := hstop
        rw [herror]
        exact .inr ⟨limit, offset, after, hbudget, hoffset, hlast, hlt, rfl⟩

/-- At every offset, settling takes up the threads that are there and at most one more for each word
of a place in an attempt that has begun. -/
theorem settleWithin_queue (hlive : Alive roots i live) (hi : i ≤ source.length) :
    let threads := queue source roots i live
    let starts := min (i + 1) source.length
    ∃ settled, settle i (i == source.length) ∅ ∅ threads = .ok settled ∧
      settleWithin i (i == source.length) (threads.length + (words roots starts).card) ∅ ∅ threads =
        some (.ok settled) := by
  intro threads starts
  have hplaced : ∀ t ∈ threads, Placed roots t ∧ t.start < starts := by
    intro t ht
    rcases mem_queue ht with ht | ⟨hlt, pattern, root, hroot, rfl⟩
    · have hearly := hlive.early t ht
      exact ⟨hlive.placed t ht, by omega⟩
    · exact ⟨placed_seed hroots hroot, Nat.lt_min.mpr ⟨Nat.lt_succ_self i, hlt⟩⟩
  obtain ⟨settled, hsettled⟩ :=
    exists_settled hroots (fun t ht => (hplaced t ht).1) (i == source.length)
  refine ⟨settled, hsettled, ?_⟩
  rw [← hsettled]
  refine settleWithin_eq_settle (fun t u ht hu => ?_) (fun t ht => ?_) hplaced
    (Nat.add_le_add_left (Digests.unmet_empty (words roots starts)).le _)
  · exact ⟨ht.1.follows hu, hu.start_eq ▸ ht.2⟩
  · exact digest_mem_words hroots ht.1 ht.2

end Rooted

end Search

theorem search_of_run_error {α : Type} {budget : Option Nat} {source : List Node}
    {patterns : List (Blueprint × α)} {marks : Nat → Nat → UInt64} {failure : SearchFailure}
    (h : Search.run budget source (Search.rootFrames marks (patterns.map fun p => p.1.node)) 0 []
      source = .error failure) :
    search budget source (patterns.map fun p => (p.1.node, p.2)) marks = .error failure := by
  unfold search
  rw [List.map_map]
  exact congrArg (· >>= _) h

/-- A search for built patterns reports matches of them, or stops where more threads are alive than
its budget allows. -/
theorem search_ends {α : Type} (source : List Node) (patterns : List (Blueprint × α))
    (marks : Nat → Nat → UInt64) (budget : Option Nat) :
    (∃ found : List (Match (Fin patterns.length)),
      search budget source (patterns.map fun p => (p.1.node, p.2)) marks =
        .ok (found.map fun m => { m with payload := (patterns.get m.payload).2 })) ∨
      ∃ limit offset after, budget = some limit ∧ offset < source.length ∧
        Search.liveAt source (Search.rootFrames marks (patterns.map fun p => p.1.node))
          (offset + 1) = .ok after ∧ limit < after.length ∧
        search budget source (patterns.map fun p => (p.1.node, p.2)) marks =
          .error (.budgetExceeded offset after.length) := by
  have hroots := Search.rooted_blueprints patterns marks
  have halive := Search.alive_nil (Search.rootFrames marks (patterns.map fun p => p.1.node))
  rcases Search.run_ends hroots budget source rfl halive rfl with ⟨results, hrun⟩ | hstop
  · obtain ⟨-, hbounds⟩ := Search.run_ordered hroots halive hrun
    have hpayload : ∀ m ∈ results, m.payload < patterns.length := by
      intro m hm
      simpa using (hbounds m hm).2
    obtain ⟨found, -, hsearch⟩ := exists_search_eq_ok hrun hpayload
    exact .inl ⟨found, hsearch⟩
  · obtain ⟨limit, offset, after, hbudget, hoffset, hafter, hlt, hrun⟩ := hstop
    exact .inr ⟨limit, offset, after, hbudget, hoffset, hafter, hlt, search_of_run_error hrun⟩

/-- Searching for built patterns comes to an end, with matches of them or because a budget is
exceeded. At every offset settling does too: it takes up the threads that are there and at most one
more for each word of a place in an attempt from an offset up to there. -/
theorem search_terminates {α : Type} (source : List Node) (patterns : List (Blueprint × α))
    (marks : Nat → Nat → UInt64) :
    let roots := Search.rootFrames marks (patterns.map fun p => p.1.node)
    (∀ budget,
      (∃ found : List (Match (Fin patterns.length)),
        search budget source (patterns.map fun p => (p.1.node, p.2)) marks =
          .ok (found.map fun m => { m with payload := (patterns.get m.payload).2 })) ∨
        ∃ limit offset after, budget = some limit ∧ offset < source.length ∧
          Search.liveAt source roots (offset + 1) = .ok after ∧ limit < after.length ∧
          search budget source (patterns.map fun p => (p.1.node, p.2)) marks =
            .error (.budgetExceeded offset after.length)) ∧
      ∀ i : Fin (source.length + 1), ∃ live settled,
        Search.liveAt source roots i = .ok live ∧
        settle i (i.val == source.length) ∅ ∅ (Search.queue source roots i live) = .ok settled ∧
        settleWithin i (i.val == source.length)
            ((Search.queue source roots i live).length +
              (Search.words roots (min (i + 1) source.length)).card)
            ∅ ∅ (Search.queue source roots i live) = some (.ok settled) := by
  intro roots
  have hroots := Search.rooted_blueprints patterns marks
  refine ⟨search_ends source patterns marks, fun i => ?_⟩
  have hi := Nat.le_of_lt_succ i.isLt
  obtain ⟨live, hat, hlive⟩ := Search.exists_liveAt hroots hi
  obtain ⟨settled, hsettled, hwithin⟩ := Search.settleWithin_queue hroots hlive hi
  exact ⟨live, settled, hat, hsettled, hwithin⟩

end Homoicon
