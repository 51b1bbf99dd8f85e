import Homoicon.Proofs.Search.Closure
import Homoicon.Proofs.Thread.Branch
import Homoicon.Proofs.Thread.Route
import Mathlib.Data.List.Nodup
import Mathlib.Data.Set.Insert
import Mathlib.Tactic.Tauto

/-! What settling threads explores, in which order, and what it leaves out for the sake of what. -/
namespace Homoicon

structure Visit where
  address : List Nat
  thread : Thread

namespace Visit

def Before (v w : Visit) : Prop := Route.Before v.address w.address

/-- A visit to the branch of a number. -/
def Spawns (index : Nat) (atEnd : Bool) (v : Visit) (k : Nat) (g : Visit) : Prop :=
  g.address = v.address ++ [k] ∧ v.thread.Branch index atEnd k g.thread

/-- The visits to several threads, by their numbers from an address on. -/
def each (address : List Nat) (threads : List Thread) : List Visit :=
  threads.mapIdx fun k u => ⟨address ++ [k], u⟩

variable {v g : Visit} {address : List Nat} {threads : List Thread} {index k : Nat} {atEnd : Bool}

theorem map_thread_each (address : List Nat) (threads : List Thread) :
    (each address threads).map thread = threads := by
  apply List.ext_getElem
  · simp [each]
  · intro i hi hi'
    simp [each]

theorem mem_each :
    g ∈ each address threads ↔
      ∃ k, threads[k]? = some g.thread ∧ g.address = address ++ [k] := by
  unfold each
  rw [List.mem_mapIdx]
  constructor
  · rintro ⟨k, hk, rfl⟩
    exact ⟨k, List.getElem?_eq_getElem hk, rfl⟩
  · rintro ⟨k, hk, haddress⟩
    obtain ⟨hlt, hthread⟩ := List.getElem?_eq_some_iff.mp hk
    refine ⟨k, hlt, ?_⟩
    rw [hthread, ← haddress]

theorem pairwise_each (address : List Nat) (threads : List Thread) :
    (each address threads).Pairwise Before := by
  apply List.pairwise_iff_getElem.mpr
  intro i j hi hj hij
  simp only [each, List.getElem_mapIdx]
  exact Route.before_snoc hij

end Visit

/-- Of visits in order, the first one to each place that is new is kept. -/
theorem keepNew_keeps_first (seen : Digests) (visits : List Visit)
    (hsorted : visits.Pairwise Visit.Before) :
    ∃ kept : List Visit, kept.Sublist visits ∧
      kept.map Visit.thread = (keepNew seen (visits.map Visit.thread)).1 ∧
      ∀ v ∈ visits, seen.contains v.thread.digest = true ∨
        ∃ g ∈ kept, g.thread.digest = v.thread.digest ∧ Route.Le g.address v.address := by
  induction visits generalizing seen with
  | nil => exact ⟨[], .slnil, rfl, List.forall_mem_nil _⟩
  | cons v visits ih =>
    obtain ⟨hbefore, hsorted⟩ := List.pairwise_cons.mp hsorted
    cases h : seen.contains v.thread.digest with
    | true =>
      obtain ⟨kept, hsub, hkept, hfirst⟩ := ih seen hsorted
      refine ⟨kept, hsub.cons v, ?_, List.forall_mem_cons.mpr ⟨.inl h, hfirst⟩⟩
      rw [List.map_cons, keepNew_cons_of_contains h]
      exact hkept
    | false =>
      obtain ⟨kept, hsub, hkept, hfirst⟩ := ih (seen.insert v.thread.digest) hsorted
      refine ⟨v :: kept, hsub.cons_cons v, ?_, List.forall_mem_cons.mpr ⟨?_, ?_⟩⟩
      · rw [List.map_cons, List.map_cons, keepNew_cons_of_not_contains h, hkept]
      · exact .inr ⟨v, .head _, rfl, .refl _⟩
      · intro w hw
        rcases hfirst w hw with hseen | ⟨g, hg, hdigest, hle⟩
        · rcases Digests.contains_insert_iff.mp hseen with hdigest | hseen
          · exact .inr ⟨v, .head _, hdigest, .inr (hbefore w hw)⟩
          · exact .inl hseen
        · exact .inr ⟨g, .tail _ hg, hdigest, hle⟩

/-- How a search at one offset goes on from some threads: the visits that it spawns, each to a place
that is new, those that it keeps waiting, and those at the ends of patterns. Where a branch is not
spawned, its place has been met before, or another visit to it was spawned no later. -/
structure Explored (index : Nat) (atEnd : Bool) (seen parked : Digests) (settled : Settled)
    (visits : List Visit) (spawned : Set Visit) (waiting ends : List Visit) : Prop where
  descends : ∀ g ∈ spawned, ∃ q ∈ visits, ∃ r, r ≠ [] ∧ g.address = q.address ++ r
  origin : ∀ g ∈ spawned, ∃ v, (v ∈ visits ∨ v ∈ spawned) ∧ ∃ k, v.Spawns index atEnd k g
  fresh : ∀ g ∈ spawned, seen.contains g.thread.digest = false
  apart : ∀ g ∈ spawned, ∀ h ∈ spawned, g.thread.digest = h.thread.digest → g = h
  closed : ∀ v, v ∈ visits ∨ v ∈ spawned → ∀ k u, v.thread.Branch index atEnd k u →
    seen.contains u.digest = true ∨ ∃ g ∈ spawned, g.thread.digest = u.digest ∧
      ∃ p, (p ∈ visits ∨ p ∈ spawned) ∧ ∃ c, p.Spawns index atEnd c g ∧
        Route.Le p.address v.address ∧ (p.address = v.address → c ≤ k)
  kept : waiting.map Visit.thread = settled.waiting
  sorted : waiting.Pairwise Visit.Before
  met : ∀ w ∈ waiting, w ∈ visits ∨ w ∈ spawned
  waits : ∀ v, v ∈ visits ∨ v ∈ spawned → v.thread.awaitsInput = true →
    parked.contains v.thread.digest = true ∨
      ∃ w ∈ waiting, w.thread.digest = v.thread.digest ∧ Route.Le w.address v.address
  matched : ends.map Visit.thread = settled.matched
  ended : ∀ m ∈ ends, m ∈ visits ∨ m ∈ spawned
  done : ∀ v, v ∈ visits ∨ v ∈ spawned → v.thread.Done → v ∈ ends

namespace Explored
variable {index : Nat} {atEnd : Bool} {seen parked parked' : Digests} {settled later : Settled}
  {v : Visit} {visits waiting waiting' ends ends' : List Visit} {spawned : Set Visit}

/-- All that is met comes after what all of the threads come after. -/
theorem after (h : Explored index atEnd seen parked settled visits spawned waiting ends)
    {a : List Nat} (ha : ∀ w ∈ visits, Route.Before a w.address) :
    ∀ w, w ∈ visits ∨ w ∈ spawned → Route.Before a w.address := by
  rintro w (hw | hw)
  · exact ha w hw
  · obtain ⟨q, hq, r, -, haddress⟩ := h.descends w hw
    rw [haddress]
    exact (ha q hq).trans_le (.inl (List.prefix_append _ r))

/-- A thread without branches joins those that the rest of the search goes on from. -/
theorem add (h : Explored index atEnd seen parked' later visits spawned waiting' ends')
    (hidle : ∀ k u, ¬v.thread.Branch index atEnd k u)
    (hkept : waiting.map Visit.thread = settled.waiting) (hsorted : waiting.Pairwise Visit.Before)
    (hmet : ∀ w ∈ waiting, w = v ∨ w ∈ waiting')
    (hwaits : ∀ w, w = v ∨ w ∈ visits ∨ w ∈ spawned → w.thread.awaitsInput = true →
      parked.contains w.thread.digest = true ∨
        ∃ x ∈ waiting, x.thread.digest = w.thread.digest ∧ Route.Le x.address w.address)
    (hmatched : ends.map Visit.thread = settled.matched)
    (hended : ∀ m ∈ ends, m = v ∨ m ∈ ends') (hsub : ends' ⊆ ends)
    (hdone : v.thread.Done → v ∈ ends) :
    Explored index atEnd seen parked settled (v :: visits) spawned waiting ends where
  descends := by
    intro g hg
    obtain ⟨q, hq, hr⟩ := h.descends g hg
    exact ⟨q, .tail _ hq, hr⟩
  origin := by
    intro g hg
    obtain ⟨w, hw, hspawn⟩ := h.origin g hg
    exact ⟨w, hw.imp_left (.tail _), hspawn⟩
  fresh := h.fresh
  apart := h.apart
  closed := by
    intro w hw k u hu
    rw [List.mem_cons, or_assoc] at hw
    rcases hw with rfl | hw
    · exact absurd hu (hidle k u)
    · refine (h.closed w hw k u hu).imp_right ?_
      rintro ⟨g, hg, hdigest, p, hp, hspawn⟩
      exact ⟨g, hg, hdigest, p, hp.imp_left (.tail _), hspawn⟩
  kept := hkept
  sorted := hsorted
  met := by
    intro w hw
    rw [List.mem_cons, or_assoc]
    exact (hmet w hw).imp_right (h.met w)
  waits := by
    intro w hw
    rw [List.mem_cons, or_assoc] at hw
    exact hwaits w hw
  matched := hmatched
  ended := by
    intro w hw
    rw [List.mem_cons, or_assoc]
    exact (hended w hw).imp_right (h.ended w)
  done := by
    intro w hw hwd
    rw [List.mem_cons, or_assoc] at hw
    rcases hw with rfl | hw
    · exact hdone hwd
    · exact hsub (h.done w hw hwd)

/-- A thread that waits where one of its word does is left out. -/
theorem drop (h : Explored index atEnd seen parked settled visits spawned waiting ends)
    (hw : v.thread.awaitsInput = true) (hp : parked.contains v.thread.digest = true) :
    Explored index atEnd seen parked settled (v :: visits) spawned waiting ends := by
  refine h.add (Thread.not_branch_of_awaitsInput hw) h.kept h.sorted (fun _ => .inr) ?_ h.matched
    (fun _ => .inr) (List.Subset.refl _)
    fun hdone => Bool.noConfusion (hdone.awaitsInput_eq.symm.trans hw)
  rintro w (rfl | hmet) hwaits
  · exact .inl hp
  · exact h.waits w hmet hwaits

theorem wait
    (h : Explored index atEnd seen (parked.insert v.thread.digest) settled visits spawned waiting
      ends)
    (hbefore : ∀ w ∈ visits, v.Before w) (hw : v.thread.awaitsInput = true) :
    Explored index atEnd seen parked { settled with waiting := v.thread :: settled.waiting }
      (v :: visits) spawned (v :: waiting) ends := by
  have hafter := h.after hbefore
  refine h.add (Thread.not_branch_of_awaitsInput hw) (congrArg (v.thread :: ·) h.kept) ?_
    (fun w => List.mem_cons.mp) ?_ h.matched (fun _ => .inr) (List.Subset.refl _)
    fun hdone => Bool.noConfusion (hdone.awaitsInput_eq.symm.trans hw)
  · exact List.pairwise_cons.mpr ⟨fun w hw => hafter w (h.met w hw), h.sorted⟩
  · rintro w (rfl | hmet) hwaits
    · exact .inr ⟨w, .head _, rfl, .refl _⟩
    · rcases h.waits w hmet hwaits with hparked | ⟨x, hx, hdigest, hle⟩
      · rcases Digests.contains_insert_iff.mp hparked with hdigest | hparked
        · exact .inr ⟨v, .head _, hdigest, .inr (hafter w hmet)⟩
        · exact .inl hparked
      · exact .inr ⟨x, .tail _ hx, hdigest, hle⟩

theorem finish (h : Explored index atEnd seen parked settled visits spawned waiting ends)
    (hw : ¬v.thread.awaitsInput = true) (hm : v.thread.move index atEnd = .ok .matched) :
    Explored index atEnd seen parked { settled with matched := v.thread :: settled.matched }
      (v :: visits) spawned waiting (v :: ends) := by
  refine h.add ?_ h.kept h.sorted (fun _ => .inr) ?_ (congrArg (v.thread :: ·) h.matched)
    (fun m => List.mem_cons.mp) (List.subset_cons_self _ _) fun _ => .head _
  · rintro k u ⟨-, next, hnext, -⟩
    cases hm.symm.trans hnext
  · rintro w (rfl | hmet) hwaits
    · exact absurd hwaits hw
    · exact h.waits w hmet hwaits

/-- What the visits that a search begins with have, and each hands on to those that it spawns, all
visits have. -/
theorem induct {Q : Visit → Prop}
    (h : Explored index atEnd seen parked settled visits spawned waiting ends)
    (hvisits : ∀ v ∈ visits, Q v)
    (hspawned : ∀ w, w ∈ visits ∨ w ∈ spawned → Q w → ∀ g ∈ spawned, ∀ k,
      w.Spawns index atEnd k g → Q g) :
    ∀ v, v ∈ visits ∨ v ∈ spawned → Q v := by
  intro v
  induction hlength : v.address.length using Nat.strongRecOn generalizing v with
  | ind n ih =>
    intro hv
    rcases hv with hv | hg
    · exact hvisits v hv
    · obtain ⟨w, hw, k, hspawn⟩ := h.origin v hg
      have hshorter : w.address.length < n := by
        rw [← hlength, hspawn.1, List.length_append]
        exact Nat.lt_succ_self _
      exact hspawned w hw (ih w.address.length hshorter w rfl hw) v hg k hspawn

section Spawn
variable {w g : Visit} {next : List Thread} {kept : List Visit}

theorem met_spawn_iff :
    (w ∈ v :: visits ∨ w ∈ {g | g ∈ kept ∨ g ∈ spawned}) ↔
      w = v ∨ w ∈ kept ++ visits ∨ w ∈ spawned := by
  rw [List.mem_cons, List.mem_append, Set.mem_ofPred_eq]
  tauto

theorem spawns_of_mem_kept (hwait : v.thread.awaitsInput = false)
    (hmove : v.thread.move index atEnd = .ok (.threads next))
    (hsub : kept.Sublist (Visit.each v.address next)) :
    ∀ g ∈ kept, ∃ k, v.Spawns index atEnd k g := by
  intro g hg
  obtain ⟨k, hk, haddress⟩ := Visit.mem_each.mp (hsub.subset hg)
  exact ⟨k, haddress, hwait, next, hmove, hk⟩

section Later
variable
  (h : Explored index atEnd (keepNew seen next).2 parked settled (kept ++ visits) spawned waiting
    ends)
  (hspawns : ∀ g ∈ kept, ∃ k, v.Spawns index atEnd k g)
include h hspawns

theorem descends_spawn (hg : g ∈ kept ∨ g ∈ spawned) :
    ∃ q ∈ v :: visits, ∃ r, r ≠ [] ∧ g.address = q.address ++ r := by
  rcases hg with hg | hg
  · obtain ⟨k, haddress, -⟩ := hspawns g hg
    exact ⟨v, .head _, [k], List.cons_ne_nil _ _, haddress⟩
  · obtain ⟨q, hq, r, hr, haddress⟩ := h.descends g hg
    rcases List.mem_append.mp hq with hq | hq
    · obtain ⟨k, hqaddress, -⟩ := hspawns q hq
      refine ⟨v, .head _, k :: r, List.cons_ne_nil _ _, ?_⟩
      rw [haddress, hqaddress, List.append_assoc]
      rfl
    · exact ⟨q, .tail _ hq, r, hr, haddress⟩

theorem le_of_met_spawn (hbefore : ∀ w ∈ visits, v.Before w)
    (hw : w ∈ kept ++ visits ∨ w ∈ spawned) :
    Route.Le v.address w.address ∧ v.address ≠ w.address := by
  have hspawned : ∀ g, g ∈ kept ∨ g ∈ spawned →
      Route.Le v.address g.address ∧ v.address ≠ g.address := by
    intro g hg
    obtain ⟨q, hq, r, hr, haddress⟩ := descends_spawn h hspawns hg
    rw [haddress]
    rcases List.mem_cons.mp hq with rfl | hq
    · exact ⟨.inl (List.prefix_append _ r), fun heq => hr (List.self_eq_append_right.mp heq)⟩
    · have hlater : Route.Before v.address (q.address ++ r) :=
        (hbefore q hq).trans_le (.inl (List.prefix_append _ r))
      exact ⟨.inr hlater, hlater.ne⟩
  rcases hw with hw | hw
  · rcases List.mem_append.mp hw with hw | hw
    · exact hspawned w (.inl hw)
    · exact ⟨.inr (hbefore w hw), (hbefore w hw).ne⟩
  · exact hspawned w (.inr hw)

end Later

/-- Of the visits spawned first and those spawned later no two are to places of one word. -/
theorem apart_spawn
    (h : Explored index atEnd (keepNew seen next).2 parked settled (kept ++ visits) spawned waiting
      ends)
    (hkept : kept.map Visit.thread = (keepNew seen next).1) (hg : g ∈ kept ∨ g ∈ spawned)
    (hw : w ∈ kept ∨ w ∈ spawned) (hdigest : g.thread.digest = w.thread.digest) : g = w := by
  have hne : ∀ g ∈ kept, ∀ w ∈ spawned, g.thread.digest ≠ w.thread.digest := by
    intro g hg w hw hdigest
    have hthread : g.thread ∈ (keepNew seen next).1 := hkept ▸ List.mem_map_of_mem hg
    have hfresh := h.fresh w hw
    rw [← hdigest, contains_keepNew.mpr (.inr ⟨g.thread, hthread, rfl⟩)] at hfresh
    cases hfresh
  have hnodup : (kept.map fun g => g.thread.digest).Nodup := by
    have hpairwise := @keepNew_pairwise seen next
    rw [← hkept, List.pairwise_map] at hpairwise
    exact List.pairwise_map.mpr hpairwise
  rcases hg with hg | hg
  · rcases hw with hw | hw
    · exact List.inj_on_of_nodup_map hnodup hg hw hdigest
    · exact absurd hdigest (hne g hg w hw)
  · rcases hw with hw | hw
    · exact absurd hdigest.symm (hne w hw g hg)
    · exact h.apart g hg w hw hdigest

/-- The threads that a thread turns into take its place. -/
theorem spawn
    (h : Explored index atEnd (keepNew seen next).2 parked settled (kept ++ visits) spawned waiting
      ends)
    (hwait : v.thread.awaitsInput = false) (hmove : v.thread.move index atEnd = .ok (.threads next))
    (hbefore : ∀ w ∈ visits, v.Before w) (hsub : kept.Sublist (Visit.each v.address next))
    (hkept : kept.map Visit.thread = (keepNew seen next).1)
    (hfirst : ∀ w ∈ Visit.each v.address next, seen.contains w.thread.digest = true ∨
      ∃ g ∈ kept, g.thread.digest = w.thread.digest ∧ Route.Le g.address w.address) :
    Explored index atEnd seen parked settled (v :: visits) {g | g ∈ kept ∨ g ∈ spawned} waiting
      ends where
  descends := fun g hg => descends_spawn h (spawns_of_mem_kept hwait hmove hsub) hg
  origin := by
    intro g hg
    rcases hg with hg | hg
    · exact ⟨v, .inl (.head _), spawns_of_mem_kept hwait hmove hsub g hg⟩
    · obtain ⟨w, hw, hspawn⟩ := h.origin g hg
      exact ⟨w, met_spawn_iff.mpr (.inr hw), hspawn⟩
  fresh := by
    intro g hg
    rcases hg with hg | hg
    · exact keepNew_fresh g.thread (hkept ▸ List.mem_map_of_mem hg)
    · exact not_contains_of_keepNew (h.fresh g hg)
  apart := fun g hg w hw => apart_spawn h hkept hg hw
  closed := by
    have hspawns := spawns_of_mem_kept hwait hmove hsub
    intro w hw k u hu
    rcases met_spawn_iff.mp hw with rfl | hw
    · obtain ⟨-, next', hnext, hk⟩ := hu
      cases hmove.symm.trans hnext
      rcases hfirst ⟨w.address ++ [k], u⟩ (Visit.mem_each.mpr ⟨k, hk, rfl⟩) with
        hseen | ⟨g, hg, hdigest, hle⟩
      · exact .inl hseen
      · obtain ⟨c, hc⟩ := hspawns g hg
        refine .inr ⟨g, .inl hg, hdigest, w, .inl (.head _), c, hc, .refl _, fun _ => ?_⟩
        rw [hc.1] at hle
        exact Route.le_snoc.mp hle
    · rcases h.closed w hw k u hu with hseen | ⟨g, hg, hdigest, p, hp, c, hc⟩
      · rcases contains_keepNew.mp hseen with hseen | ⟨x, hx, hdigest⟩
        · exact .inl hseen
        · rw [← hkept] at hx
          obtain ⟨g, hg, rfl⟩ := List.mem_map.mp hx
          obtain ⟨c, hc⟩ := hspawns g hg
          obtain ⟨hle, hne⟩ := le_of_met_spawn h hspawns hbefore hw
          exact .inr ⟨g, .inl hg, hdigest, v, .inl (.head _), c, hc, hle, fun heq => absurd heq hne⟩
      · exact .inr ⟨g, .inr hg, hdigest, p, met_spawn_iff.mpr (.inr hp), c, hc⟩
  kept := h.kept
  sorted := h.sorted
  met := fun w hw => met_spawn_iff.mpr (.inr (h.met w hw))
  waits := by
    intro w hw hwaits
    rcases met_spawn_iff.mp hw with rfl | hw
    · exact Bool.noConfusion (hwaits.symm.trans hwait)
    · exact h.waits w hw hwaits
  matched := h.matched
  ended := fun m hm => met_spawn_iff.mpr (.inr (h.ended m hm))
  done := by
    intro w hw hdone
    rcases met_spawn_iff.mp hw with rfl | hw
    · cases hmove.symm.trans (Thread.move_eq_matched_iff.mpr hdone)
    · exact h.done w hw hdone

end Spawn

end Explored

theorem Visit.pairwise_kept {v : Visit} {visits kept : List Visit} {next : List Thread}
    (hbefore : ∀ w ∈ visits, v.Before w) (hsorted : visits.Pairwise Visit.Before)
    (hsub : kept.Sublist (Visit.each v.address next)) :
    (kept ++ visits).Pairwise Visit.Before := by
  refine List.pairwise_append.mpr ⟨(pairwise_each v.address next).sublist hsub, hsorted, ?_⟩
  intro g hg w hw
  obtain ⟨k, -, haddress⟩ := mem_each.mp (hsub.subset hg)
  have happend := (hbefore w hw).append [k] []
  rw [List.append_nil, ← haddress] at happend
  exact happend

/-- Settling threads that are in order explores on from them. -/
theorem settle_explores {index : Nat} {atEnd : Bool} {seen parked : Digests} {settled : Settled}
    {visits : List Visit} (hsorted : visits.Pairwise Visit.Before)
    (h : settle index atEnd seen parked (visits.map Visit.thread) = .ok settled) :
    ∃ spawned waiting ends,
      Explored index atEnd seen parked settled visits spawned waiting ends := by
  generalize hthreads : visits.map Visit.thread = threads at h
  replace h := settles_of_settle h
  induction h generalizing visits with
  | nil =>
    obtain rfl := List.map_eq_nil_iff.mp hthreads
    exact ⟨∅, [], [], by constructor <;> simp⟩
  | dropped hw hp _ ih =>
    obtain ⟨v, visits, rfl, rfl, rfl⟩ := List.map_eq_cons_iff.mp hthreads
    obtain ⟨spawned, waiting, ends, hE⟩ := ih hsorted.of_cons rfl
    exact ⟨spawned, waiting, ends, hE.drop hw hp⟩
  | waiting hw hp _ ih =>
    obtain ⟨v, visits, rfl, rfl, rfl⟩ := List.map_eq_cons_iff.mp hthreads
    obtain ⟨hbefore, hsorted⟩ := List.pairwise_cons.mp hsorted
    obtain ⟨spawned, waiting, ends, hE⟩ := ih hsorted rfl
    exact ⟨spawned, v :: waiting, ends, hE.wait hbefore hw⟩
  | matched hw hm _ ih =>
    obtain ⟨v, visits, rfl, rfl, rfl⟩ := List.map_eq_cons_iff.mp hthreads
    obtain ⟨spawned, waiting, ends, hE⟩ := ih hsorted.of_cons rfl
    exact ⟨spawned, waiting, v :: ends, hE.finish hw hm⟩
  | @moved seen _ _ _ next _ hw hm _ ih =>
    obtain ⟨v, visits, rfl, rfl, rfl⟩ := List.map_eq_cons_iff.mp hthreads
    obtain ⟨hbefore, hsorted⟩ := List.pairwise_cons.mp hsorted
    obtain ⟨kept, hsub, hkept, hfirst⟩ :=
      keepNew_keeps_first seen (Visit.each v.address next) (Visit.pairwise_each _ _)
    rw [Visit.map_thread_each] at hkept
    have hsorted' := Visit.pairwise_kept hbefore hsorted hsub
    obtain ⟨spawned, waiting, ends, hE⟩ := ih hsorted' (by rw [List.map_append, hkept])
    exact ⟨_, waiting, ends, hE.spawn (by simpa using hw) hm hbefore hsub hkept hfirst⟩

section Visited
variable {index : Nat} {atEnd : Bool} {seen parked : Digests} {settled : Settled}

/-- A set of threads that a search at one offset has been through: the successors of each, where it
waits, and that it is done, are all accounted for by the words met before or by the set itself. -/
structure Visited (index : Nat) (atEnd : Bool) (seen parked : Digests) (settled : Settled)
    (V : Set Thread) : Prop where
  follows : ∀ t ∈ V, ∀ u, t.Follows index atEnd u →
    seen.contains u.digest = true ∨ ∃ v ∈ V, v.digest = u.digest
  waits : ∀ t ∈ V, t.awaitsInput = true →
    parked.contains t.digest = true ∨ ∃ w ∈ settled.waiting, w.digest = t.digest
  matched : ∀ t ∈ V, t.Done → t ∈ settled.matched

theorem Explored.visited {visits waiting ends : List Visit} {spawned : Set Visit}
    (h : Explored index atEnd seen parked settled visits spawned waiting ends) :
    Visited index atEnd seen parked settled
      {t | ∃ v, (v ∈ visits ∨ v ∈ spawned) ∧ v.thread = t} where
  follows := by
    intro t ht u hu
    obtain ⟨v, hv, rfl⟩ := ht
    obtain ⟨next, hnext, hmem⟩ := hu.mem_move
    obtain ⟨k, hk⟩ := List.mem_iff_getElem?.mp hmem
    have hbranch : v.thread.Branch index atEnd k u := ⟨hu.awaitsInput_eq, next, hnext, hk⟩
    rcases h.closed v hv k u hbranch with hseen | ⟨g, hg, hdigest, -⟩
    · exact .inl hseen
    · exact .inr ⟨g.thread, ⟨g, .inr hg, rfl⟩, hdigest⟩
  waits := by
    intro t ht hwait
    obtain ⟨v, hv, rfl⟩ := ht
    rcases h.waits v hv hwait with hparked | ⟨w, hw, hdigest, -⟩
    · exact .inl hparked
    · exact .inr ⟨w.thread, h.kept ▸ List.mem_map_of_mem hw, hdigest⟩
  matched := by
    intro t ht hdone
    obtain ⟨v, hv, rfl⟩ := ht
    exact h.matched ▸ List.mem_map_of_mem (h.done v hv hdone)

/-- Settling threads goes through a set that holds them all and that moves do not lead out of. -/
theorem settle_visits {P : Thread → Prop} {threads : List Thread}
    (hP : ∀ t u, P t → t.Follows index atEnd u → P u) (ht : ∀ t ∈ threads, P t)
    (h : settle index atEnd seen parked threads = .ok settled) :
    ∃ V : Set Thread, (∀ t ∈ threads, t ∈ V) ∧ (∀ t ∈ V, P t) ∧
      Visited index atEnd seen parked settled V := by
  have hthreads := Visit.map_thread_each [] threads
  rw [← hthreads] at h ht
  obtain ⟨spawned, waiting, ends, hE⟩ := settle_explores (Visit.pairwise_each [] threads) h
  refine ⟨_, ?_, ?_, hE.visited⟩
  · intro t hmem
    rw [← hthreads] at hmem
    obtain ⟨v, hv, rfl⟩ := List.mem_map.mp hmem
    exact ⟨v, .inl hv, rfl⟩
  · intro t hmem
    obtain ⟨v, hv, rfl⟩ := hmem
    refine hE.induct (Q := fun v => P v.thread) ?_ ?_ v hv
    · exact fun w hw => ht _ (List.mem_map_of_mem hw)
    · exact fun w _ hw g _ k hspawn => hP _ _ hw hspawn.2.follows

end Visited

end Homoicon
