import Homoicon.Proofs.Search.Order
import Homoicon.Proofs.Thread.Shift

/-! An attempt goes on in the same way among others and by itself. -/
namespace Homoicon
namespace Search

/-- An attempt of a search over the nodes of a source without the first `skipped` ones, and the
index `target` that its pattern has in a search over all of them. -/
structure Excerpt where
  skipped : Nat
  start : Nat
  pattern : Nat
  target : Nat

namespace Excerpt

def Holds (e : Excerpt) (t : Thread) : Prop := t.start = e.start ∧ t.pattern = e.pattern

instance (e : Excerpt) (t : Thread) : Decidable (e.Holds t) :=
  inferInstanceAs (Decidable (t.start = e.start ∧ t.pattern = e.pattern))

/-- A thread of the attempt, as it is in the search over all nodes. -/
def thread (e : Excerpt) (t : Thread) : Thread := t.shift e.skipped e.target

def threads (e : Excerpt) (ts : List Thread) : List Thread := (ts.filter e.Holds).map e.thread

def reports (e : Excerpt) (ms : List (Match Nat)) : List (Match Nat) :=
  (ms.filter fun m => m.start = e.start ∧ m.payload = e.pattern).map (·.shift e.skipped e.target)

/-- A search over all nodes and one over some, in both of which places are told apart; the pattern
of the attempt is the same in both, and it does not ask for the start of the source. -/
structure Fits (e : Excerpt) (source : List Node) (roots part : List Frame) : Prop where
  whole : Distinct source roots
  distinct : Distinct (source.drop e.skipped) part
  rooted : Rooted part
  skipped_le : e.skipped ≤ source.length
  pattern : ∃ root, roots[e.target]? = some root ∧ part[e.pattern]? = some root ∧
    root.group.Unanchored

/-- Two sets of words agree on the places of the attempt. -/
def Agrees (e : Excerpt) (source : List Node) (part : List Frame) (seen seen' : Digests) : Prop :=
  ∀ ⦃i t⦄, Reached (source.drop e.skipped) part i t → e.Holds t →
    seen'.contains (e.thread t).digest = seen.contains t.digest

section Lists
variable {e : Excerpt} {t u : Thread} {ts us : List Thread}

@[simp] theorem threads_nil : e.threads [] = [] := rfl

theorem awaitsInput_thread (e : Excerpt) (t : Thread) :
    (e.thread t).awaitsInput = t.awaitsInput := rfl

theorem threads_cons_of_holds (h : e.Holds t) :
    e.threads (t :: ts) = e.thread t :: e.threads ts := by
  simp [threads, h]

theorem threads_cons_of_not_holds (h : ¬e.Holds t) : e.threads (t :: ts) = e.threads ts := by
  simp [threads, h]

@[simp] theorem threads_append : e.threads (ts ++ us) = e.threads ts ++ e.threads us := by
  simp [threads]

theorem threads_eq_map (h : ∀ t ∈ ts, e.Holds t) : e.threads ts = ts.map e.thread := by
  unfold threads
  rw [List.filter_eq_self.mpr fun t ht => decide_eq_true (h t ht)]

theorem threads_eq_nil (h : ∀ t ∈ ts, ¬e.Holds t) : e.threads ts = [] := by
  unfold threads
  rw [List.filter_eq_nil_iff.mpr fun t ht => by simpa using h t ht, List.map_nil]

theorem holds_congr (h : u.SameAttempt t) : e.Holds u ↔ e.Holds t := by
  unfold Holds
  rw [h.1, h.2]

theorem reports_append (ms ns : List (Match Nat)) :
    e.reports (ms ++ ns) = e.reports ms ++ e.reports ns := by
  simp [reports]

theorem reports_found {source : List Node} (hd : e.skipped ≤ source.length) (i : Nat)
    (ts : List Thread) :
    e.reports (ts.map (found (source.drop e.skipped) i)) =
      (e.threads ts).map (found source (i + e.skipped)) := by
  induction ts with
  | nil => rfl
  | cons t ts ih =>
    unfold reports at ih ⊢
    by_cases ht : e.Holds t
    · rw [threads_cons_of_holds ht, List.map_cons,
        List.filter_cons_of_pos (by simpa [found, Holds] using ht), List.map_cons, ih,
        List.map_cons, thread, found_shift hd]
    · rw [threads_cons_of_not_holds ht, List.map_cons,
        List.filter_cons_of_neg (by simpa [found, Holds] using ht), ih]

theorem threads_seeds_of_ne {part : List Frame} {i : Nat} (h : e.start ≠ i) :
    e.threads (seeds part i) = [] := by
  refine threads_eq_nil fun t ht hold => ?_
  obtain ⟨pattern, root, -, rfl⟩ := mem_seeds.mp ht
  exact h hold.1.symm

theorem threads_seeds {part : List Frame} {root : Frame} (h : part[e.pattern]? = some root) :
    e.threads (seeds part e.start) = [.seed (e.start + e.skipped) e.target root] := by
  obtain ⟨hlt, hroot⟩ := List.getElem?_eq_some_iff.mp h
  have hsplit : part = part.take e.pattern ++ root :: part.drop (e.pattern + 1) := by
    rw [← hroot, ← List.drop_eq_getElem_cons hlt, List.take_append_drop]
  have hlength : (part.take e.pattern).length = e.pattern := List.length_take_of_le hlt.le
  have hself : e.Holds (.seed e.start e.pattern root) := ⟨rfl, rfl⟩
  have hbefore : ∀ t ∈ (part.take e.pattern).mapIdx (Thread.seed e.start), ¬e.Holds t := by
    intro t ht hold
    obtain ⟨k, hk, rfl⟩ := List.mem_mapIdx.mp ht
    rw [hlength] at hk
    exact hk.ne hold.2
  have hafter : ∀ t ∈ (part.drop (e.pattern + 1)).mapIdx
      (fun k => Thread.seed e.start (k + 1 + e.pattern)), ¬e.Holds t := by
    intro t ht hold
    obtain ⟨k, hk, rfl⟩ := List.mem_mapIdx.mp ht
    have hpattern : k + 1 + e.pattern = e.pattern := hold.2
    omega
  unfold seeds
  rw [hsplit, List.mapIdx_append, List.mapIdx_cons, hlength, threads_append, threads_eq_nil hbefore,
    Nat.zero_add, threads_cons_of_holds hself, threads_eq_nil hafter]
  rfl

end Lists

variable {e : Excerpt} {source : List Node} {roots part : List Frame} {i : Nat} {t u : Thread}
  {seen seen' parked parked' : Digests} {ts live : List Thread}

theorem agrees_empty : e.Agrees source part ∅ ∅ := fun _ _ _ _ => by simp

theorem Fits.unanchored (h : e.Fits source roots part) (ht : Placed part t) (hold : e.Holds t) :
    t.top.group.Unanchored := by
  obtain ⟨root, -, hroot, hunanchored⟩ := h.pattern
  obtain ⟨root', hroot', hwithin⟩ := ht
  rw [hold.2, hroot] at hroot'
  cases hroot'
  exact hwithin.unanchored hunanchored

theorem Fits.reached (h : e.Fits source roots part) (ht : Reached (source.drop e.skipped) part i t)
    (hold : e.Holds t) : Reached source roots (i + e.skipped) (e.thread t) := by
  have hboth : Placed part t ∧
      (e.Holds t → Reached source roots (i + e.skipped) (e.thread t)) := by
    refine ht.induct (P := fun i t => Placed part t ∧
      (e.Holds t → Reached source roots (i + e.skipped) (e.thread t))) ?_ ?_
    · intro start pattern root hs hroot
      refine ⟨placed_seed h.rooted hroot, fun hold => ?_⟩
      obtain ⟨root', hroots, hpart, -⟩ := h.pattern
      obtain ⟨rfl, rfl⟩ := hold
      cases hpart.symm.trans hroot
      rw [List.length_drop] at hs
      exact reached_seed (Nat.add_lt_of_lt_sub hs) hroots
    · intro i t j u ⟨hplaced, hreached⟩ hstep
      refine ⟨?_, fun hold => ?_⟩
      · cases hstep with
        | move hu => exact hplaced.follows hu
        | consume _ hu => exact hplaced.consume hu
      · have hsame : u.SameAttempt t := ⟨hstep.start_eq, hstep.pattern_eq⟩
        have hholds := (holds_congr hsame).mp hold
        exact (hreached hholds).step (hstep.shift h.skipped_le (h.unanchored hplaced hholds))
  exact hboth.2 hold

theorem Fits.digest_eq_iff (h : e.Fits source roots part) {j : Nat}
    (ht : Reached (source.drop e.skipped) part i t)
    (hu : Reached (source.drop e.skipped) part j u) (htold : e.Holds t) (huold : e.Holds u) :
    (e.thread t).digest = (e.thread u).digest ↔ t.digest = u.digest := by
  constructor
  · intro heq
    obtain ⟨-, -, htop, houter⟩ :=
      Thread.place_eq_iff.mp (h.whole (h.reached ht htold) (h.reached hu huold) heq)
    refine Thread.digest_eq_of_place_eq (Thread.place_eq_iff.mpr ⟨?_, ?_, htop, houter⟩)
    · exact htold.1.trans huold.1.symm
    · exact htold.2.trans huold.2.symm
  · intro heq
    exact Thread.digest_eq_of_place_eq (Thread.place_shift_eq (h.distinct ht hu heq))

/-- The attempt moves in the same way in both searches. -/
theorem Fits.move_thread (h : e.Fits source roots part) (ht : Placed part t) (hold : e.Holds t)
    {atEnd : Bool} {move : Move} (hm : t.move i atEnd = .ok move) :
    (e.thread t).move (i + e.skipped) atEnd = .ok (move.map e.thread) := by
  unfold thread
  rw [Thread.move_shift (h.unanchored ht hold), hm]
  rfl

section Agreement
variable (h : e.Fits source roots part) (hseen : e.Agrees source part seen seen')
  (ht : Reached (source.drop e.skipped) part i t)
include h hseen ht

theorem Fits.agrees_insert (hold : e.Holds t) :
    e.Agrees source part (seen.insert t.digest) (seen'.insert (e.thread t).digest) := by
  intro j u hu huold
  rw [Bool.eq_iff_iff, Digests.contains_insert_iff, Digests.contains_insert_iff,
    h.digest_eq_iff ht hu hold huold, hseen hu huold]

theorem Fits.agrees_insert_of_not_holds (hold : ¬e.Holds t) :
    e.Agrees source part (seen.insert t.digest) seen' := by
  intro j u hu huold
  have hne : t.digest ≠ u.digest := fun heq => by
    obtain ⟨hstart, hpattern, -⟩ := Thread.place_eq_iff.mp (h.distinct ht hu heq)
    exact hold ((holds_congr ⟨hstart, hpattern⟩).mpr huold)
  rw [Bool.eq_iff_iff, Digests.contains_insert_iff, hseen hu huold]
  simp only [hne, false_or]

end Agreement

/-- What is kept of the attempt does not depend on the other threads. -/
theorem Fits.keepNew_threads (h : e.Fits source roots part)
    (hseen : e.Agrees source part seen seen')
    (hts : ∀ t ∈ ts, Reached (source.drop e.skipped) part i t) :
    (keepNew seen' (e.threads ts)).1 = e.threads (keepNew seen ts).1 ∧
      e.Agrees source part (keepNew seen ts).2 (keepNew seen' (e.threads ts)).2 := by
  induction ts generalizing seen seen' with
  | nil => exact ⟨rfl, hseen⟩
  | cons t ts ih =>
    obtain ⟨ht, hts⟩ := List.forall_mem_cons.mp hts
    by_cases hold : e.Holds t
    · have hword := hseen ht hold
      rw [threads_cons_of_holds hold]
      cases hc : seen.contains t.digest with
      | true =>
        rw [keepNew_cons_of_contains hc, keepNew_cons_of_contains (hword.trans hc)]
        exact ih hseen hts
      | false =>
        obtain ⟨hkept, hagrees⟩ := ih (h.agrees_insert hseen ht hold) hts
        rw [keepNew_cons_of_not_contains hc, keepNew_cons_of_not_contains (hword.trans hc)]
        exact ⟨by rw [threads_cons_of_holds hold, hkept], hagrees⟩
    · rw [threads_cons_of_not_holds hold]
      cases hc : seen.contains t.digest with
      | true =>
        rw [keepNew_cons_of_contains hc]
        exact ih hseen hts
      | false =>
        obtain ⟨hkept, hagrees⟩ := ih (h.agrees_insert_of_not_holds hseen ht hold) hts
        rw [keepNew_cons_of_not_contains hc]
        exact ⟨by rw [threads_cons_of_not_holds hold, hkept], hagrees⟩

/-- Where the attempt settles does not depend on the other threads. -/
theorem Fits.settle_threads (h : e.Fits source roots part) {atEnd : Bool} {settled : Settled}
    (hend : (i == (source.drop e.skipped).length) = atEnd)
    (hts : ∀ t ∈ ts, Reached (source.drop e.skipped) part i t)
    (hseen : e.Agrees source part seen seen') (hparked : e.Agrees source part parked parked')
    (hs : settle i atEnd seen parked ts = .ok settled) :
    settle (i + e.skipped) atEnd seen' parked' (e.threads ts) =
      .ok ⟨e.threads settled.waiting, e.threads settled.matched⟩ := by
  replace hs := settles_of_settle hs
  induction hs generalizing seen' parked' with
  | nil => rw [threads_nil, settle]
  | @dropped _ _ t _ _ hw hp _ ih =>
    obtain ⟨ht, hrest⟩ := List.forall_mem_cons.mp hts
    have hrec := ih hrest hseen hparked
    by_cases hold : e.Holds t
    · have hp' := (hparked ht hold).trans hp
      rw [← awaitsInput_thread e] at hw
      rw [threads_cons_of_holds hold, settle_cons_of_parked hw hp']
      exact hrec
    · rw [threads_cons_of_not_holds hold]
      exact hrec
  | @waiting _ _ t _ _ hw hp _ ih =>
    obtain ⟨ht, hrest⟩ := List.forall_mem_cons.mp hts
    by_cases hold : e.Holds t
    · have hp' : ¬parked'.contains (e.thread t).digest = true := by rwa [hparked ht hold]
      have hrec := ih hrest hseen (h.agrees_insert hparked ht hold)
      rw [← awaitsInput_thread e] at hw
      rw [threads_cons_of_holds hold, threads_cons_of_holds hold]
      exact settle_cons_of_waiting hw hp' hrec
    · rw [threads_cons_of_not_holds hold, threads_cons_of_not_holds hold]
      exact ih hrest hseen (h.agrees_insert_of_not_holds hparked ht hold)
  | @matched _ _ t _ _ hw hm _ ih =>
    obtain ⟨ht, hrest⟩ := List.forall_mem_cons.mp hts
    have hrec := ih hrest hseen hparked
    by_cases hold : e.Holds t
    · have hm' := h.move_thread (ht.placed h.rooted) hold hm
      rw [← awaitsInput_thread e] at hw
      rw [threads_cons_of_holds hold, threads_cons_of_holds hold]
      exact settle_cons_of_matched hw hm' hrec
    · rw [threads_cons_of_not_holds hold, threads_cons_of_not_holds hold]
      exact hrec
  | @moved _ _ t _ next _ hw hm _ ih =>
    obtain ⟨ht, -⟩ := List.forall_mem_cons.mp hts
    have hfollows : ∀ u ∈ next, t.Follows i atEnd u := fun u hu =>
      Thread.follows_of_mem_move (by simpa using hw) hm hu
    have hsame : ∀ u ∈ next, e.Holds u ↔ e.Holds t := fun u hu =>
      holds_congr ⟨(hfollows u hu).start_eq, (hfollows u hu).pattern_eq⟩
    have hreached : ∀ u ∈ next, Reached (source.drop e.skipped) part i u := fun u hu =>
      ht.follows (hend ▸ hfollows u hu)
    obtain ⟨hkept, hagrees⟩ := h.keepNew_threads hseen hreached
    have hrec := ih (forall_mem_kept (fun _ _ h hu => Reached.follows h (hend ▸ hu)) hts hw hm)
      hagrees hparked
    rw [threads_append, ← hkept] at hrec
    by_cases hold : e.Holds t
    · have hnext := threads_eq_map fun u hu => (hsame u hu).mpr hold
      have hm' := h.move_thread (ht.placed h.rooted) hold hm
      rw [hnext] at hrec
      rw [← awaitsInput_thread e] at hw
      rw [threads_cons_of_holds hold, settle_cons_of_threads hw hm']
      exact hrec
    · have hnext := threads_eq_nil fun u hu hu' => hold ((hsame u hu).mp hu')
      rw [threads_cons_of_not_holds hold]
      rw [hnext] at hrec
      exact hrec

theorem threads_consumeAll {input : Node} {consumed : List Thread}
    (h : consumeAll input ts = .ok consumed) :
    consumeAll input (e.threads ts) = .ok (e.threads consumed) := by
  induction ts generalizing consumed with
  | nil =>
    cases h
    rfl
  | cons t ts ih =>
    obtain ⟨next, others, hnext, hothers, rfl⟩ := consumeAll_cons_eq_ok h
    have hsame : ∀ u ∈ next.toList, u.SameAttempt t := by
      intro u hu
      rw [Option.mem_toList.mp hu] at hnext
      exact Thread.sameAttempt_of_consume hnext
    rw [threads_append]
    by_cases hold : e.Holds t
    · have hconsume : (e.thread t).consume input = .ok (next.map e.thread) := by
        rw [thread, Thread.consume_shift, hnext]
        rfl
      have htoList : e.threads next.toList = (next.map e.thread).toList := by
        rw [threads_eq_map fun u hu => (holds_congr (hsame u hu)).mpr hold]
        cases next <;> rfl
      rw [threads_cons_of_holds hold, htoList]
      exact bind_eq_ok.mpr ⟨_, hconsume, bind_eq_ok.mpr ⟨_, ih hothers, rfl⟩⟩
    · have htoList : e.threads next.toList = [] :=
        threads_eq_nil fun u hu hu' => hold ((holds_congr (hsame u hu)).mp hu')
      rw [threads_cons_of_not_holds hold, htoList]
      exact ih hothers

/-- What the attempt does at an offset does not depend on the other threads. -/
theorem Fits.advance_threads (h : e.Fits source roots part) {input : Node} {step : Advance}
    (hi : (source.drop e.skipped)[i]? = some input)
    (hlive : ∀ t ∈ live, Reached (source.drop e.skipped) part i t)
    (hstep : advance part i live input = .ok step) :
    advance [] (i + e.skipped) (e.threads (live ++ seeds part i)) input =
      .ok ⟨e.threads step.matched, e.threads step.live⟩ := by
  have hlt : i < (source.drop e.skipped).length := (List.getElem?_eq_some_iff.mp hi).1
  have hend : (i == (source.drop e.skipped).length) = false := by simpa using hlt.ne
  have hall := forall_reached_live hlt hlive
  obtain ⟨settled, consumed, hsettled, hconsumed, rfl⟩ := advance_eq_ok hstep
  have hreached : ∀ t ∈ consumed, Reached (source.drop e.skipped) part (i + 1) t := by
    intro t ht
    obtain ⟨u, hu, hconsume⟩ := (mem_consumeAll hconsumed).mp ht
    exact ((settle_reached hend hall hsettled).1 u hu).1.step (.consume hi hconsume)
  have hsettled' := h.settle_threads hend hall agrees_empty agrees_empty hsettled
  obtain ⟨hkept, -⟩ := h.keepNew_threads agrees_empty hreached
  have hseeds : e.threads (live ++ seeds part i) ++ seeds [] (i + e.skipped) =
      e.threads (live ++ seeds part i) := List.append_nil _
  refine bind_eq_ok.mpr ⟨_, hseeds.symm ▸ hsettled', bind_eq_ok.mpr
    ⟨_, threads_consumeAll hconsumed, ?_⟩⟩
  rw [hkept]

/-- What is reported of the attempt once it has started does not depend on the others. -/
theorem Fits.run_reports (h : e.Fits source roots part) {rest : List Node}
    {results : List (Match Nat)} (hrest : (source.drop e.skipped).drop i = rest)
    (hi : i ≤ (source.drop e.skipped).length)
    (hstart : e.start < i) (hlive : ∀ t ∈ live, Reached (source.drop e.skipped) part i t)
    (hrun : run none (source.drop e.skipped) part i live rest = .ok results) :
    run none source [] (i + e.skipped) (e.threads live) rest = .ok (e.reports results) := by
  induction rest generalizing i live results with
  | nil =>
    obtain ⟨settled, hsettled, rfl⟩ := run_nil_eq_ok hrun
    have hend : (i == (source.drop e.skipped).length) = true := by
      simpa using Nat.le_antisymm hi (List.drop_eq_nil_iff.mp hrest)
    have hsettled' := h.settle_threads hend hlive agrees_empty agrees_empty hsettled
    refine bind_eq_ok.mpr ⟨_, mapError_eq_ok.mpr hsettled', ?_⟩
    rw [reports_found h.skipped_le]
  | cons input rest ih =>
    have hinput := getElem?_of_drop_eq_cons hrest
    obtain ⟨step, later, hstep, hlater, rfl⟩ := run_cons_eq_ok hrun
    obtain ⟨-, hnext⟩ := advance_sound hinput hlive hstep
    have hstep' := h.advance_threads hinput hlive hstep
    rw [threads_append, threads_seeds_of_ne hstart.ne, List.append_nil] at hstep'
    have hlater' := ih (drop_succ_of_drop_eq_cons hrest) (List.getElem?_eq_some_iff.mp hinput).1
      (Nat.lt_succ_of_lt hstart) hnext hlater
    rw [Nat.add_right_comm] at hlater'
    refine bind_eq_ok.mpr ⟨_, mapError_eq_ok.mpr hstep', bind_eq_ok.mpr ⟨_, hlater', ?_⟩⟩
    rw [reports_append, reports_found h.skipped_le]

/-- What is reported of the attempt is what it reports by itself from where it starts. -/
theorem Fits.run_attempt (h : e.Fits source roots part) {root : Frame}
    (hroot : part[e.pattern]? = some root) {rest : List Node} {results : List (Match Nat)}
    (hrest : (source.drop e.skipped).drop i = rest) (hstart : i ≤ e.start)
    (hlt : e.start < (source.drop e.skipped).length)
    (hlive : ∀ t ∈ live, Reached (source.drop e.skipped) part i t) (hnone : e.threads live = [])
    (hrun : run none (source.drop e.skipped) part i live rest = .ok results) :
    run none source [] (e.start + e.skipped) [.seed (e.start + e.skipped) e.target root]
      ((source.drop e.skipped).drop e.start) = .ok (e.reports results) := by
  induction rest generalizing i live results with
  | nil => exact absurd (List.drop_eq_nil_iff.mp hrest) (by omega)
  | cons input rest ih =>
    have hinput := getElem?_of_drop_eq_cons hrest
    have hdrop := drop_succ_of_drop_eq_cons hrest
    obtain ⟨step, later, hstep, hlater, rfl⟩ := run_cons_eq_ok hrun
    obtain ⟨-, hnext⟩ := advance_sound hinput hlive hstep
    have hstep' := h.advance_threads hinput hlive hstep
    rw [threads_append, hnone, List.nil_append] at hstep'
    rw [reports_append, reports_found h.skipped_le]
    rcases hstart.eq_or_lt with rfl | hstart
    · rw [threads_seeds hroot] at hstep'
      have hlater' := h.run_reports hdrop hlt (Nat.lt_succ_self _) hnext hlater
      rw [Nat.add_right_comm] at hlater'
      rw [hrest]
      exact bind_eq_ok.mpr ⟨_, mapError_eq_ok.mpr hstep', bind_eq_ok.mpr ⟨_, hlater', rfl⟩⟩
    · rw [threads_seeds_of_ne hstart.ne'] at hstep'
      have hempty : advance [] (i + e.skipped) [] input = .ok ⟨[], []⟩ := by
        refine bind_eq_ok.mpr ⟨⟨[], []⟩, ?_, bind_eq_ok.mpr ⟨[], rfl, rfl⟩⟩
        rw [show [] ++ seeds [] (i + e.skipped) = [] from rfl, settle]
      obtain ⟨hmatched, hnone'⟩ := Advance.mk.inj (Except.ok.inj (hstep'.symm.trans hempty))
      rw [hmatched, List.map_nil, List.nil_append]
      exact ih hdrop hstart hnext hnone' hlater

end Excerpt
end Search
end Homoicon
