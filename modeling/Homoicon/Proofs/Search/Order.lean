import Homoicon.Proofs.Search.Run

/-! The order in which a search reports its matches. -/
namespace Homoicon

/-- The order of attempts: those from earlier offsets come first, then those at earlier patterns. -/
def Thread.Precedes (t u : Thread) : Prop :=
  t.start < u.start ∨ t.start = u.start ∧ t.pattern < u.pattern

/-- The order of matches: by where they stop, by where they start and by what they are of. -/
def Match.Precedes {α : Type} [LT α] (a b : Match α) : Prop :=
  a.stop < b.stop ∨
    a.stop = b.stop ∧ (a.start < b.start ∨ a.start = b.start ∧ a.payload < b.payload)

namespace Thread
variable {t u v : Thread}

def SameAttempt (t u : Thread) : Prop := t.start = u.start ∧ t.pattern = u.pattern

theorem precedes_of_not (h : ¬u.Precedes t) (hne : ¬t.SameAttempt u) : t.Precedes u := by
  unfold Precedes SameAttempt at *
  omega

theorem not_precedes_of_sameAttempt {w : Thread} (h : ¬u.Precedes t) (hu : v.SameAttempt u)
    (ht : w.SameAttempt t) : ¬v.Precedes w := by
  unfold Precedes SameAttempt at *
  omega

theorem sameAttempt_of_consume {input : Node} (h : t.consume input = .ok (some u)) :
    u.SameAttempt t := by
  obtain ⟨-, -, -, rfl⟩ := consume_eq_some h
  exact ⟨rfl, rfl⟩

theorem digest_eq_of_place_eq (h : t.place = u.place) : t.digest = u.digest := by
  rw [← digest_place t, h, digest_place]

/-- Whether the last thing that the innermost group does is to consume a node. A group without items
counts, as no step leads to its end either. -/
def EndsOnInput (t : Thread) : Prop := ∀ p ∈ t.top.items.getLast?, p.isTest = true

theorem EndsOnInput.of_place_eq (h : t.EndsOnInput) (hu : u.place = t.place) : u.EndsOnInput := by
  rw [eq_of_place_eq hu]
  exact h

theorem endsOnInput_seed {start pattern : Nat} {root : Frame} (hindex : root.index = 0)
    (hdone : (seed start pattern root).Done) : (seed start pattern root).EndsOnInput := by
  have hle := Frame.current_eq_none_iff.mp hdone.1
  rw [show (seed start pattern root).top.index = 0 from hindex] at hle
  intro p hp
  rw [List.length_eq_zero_iff.mp (Nat.le_zero.mp hle)] at hp
  cases hp

end Thread

theorem Frame.getLast?_items_of_advance {f : Frame} {p : Pattern} (h : f.current = some p)
    (hshape : f.shape ≠ .choice) (hend : f.advance.current = none) :
    f.advance.items.getLast? = some p := by
  have hlt := index_lt_of_current h
  rw [advance_of_ne_choice hshape] at hend ⊢
  have hle := current_eq_none_iff.mp hend
  dsimp only at hle ⊢
  rw [List.getLast?_eq_getElem?, show f.items.length - 1 = f.index by omega]
  exact h

namespace Search
open Thread (SameAttempt EndsOnInput)

variable {roots : List Frame} {index : Nat} {atEnd : Bool} {t u : Thread} {threads : List Thread}
  {seen parked : Digests} {settled : Settled}

/-- A pattern that is done is done in one place only. -/
theorem Placed.place_eq (ht : Placed roots t) (hu : Placed roots u) (htd : t.Done) (hud : u.Done)
    (h : t.SameAttempt u) : t.place = u.place := by
  obtain ⟨root, hroot, htw⟩ := ht
  obtain ⟨root', hroot', huw⟩ := hu
  rw [h.2, hroot'] at hroot
  cases hroot
  rw [htd.2] at htw
  rw [hud.2] at huw
  have hgroup : t.top.group = u.top.group := htw.1.trans huw.1.symm
  have hti := Nat.le_antisymm htw.2 (Frame.current_eq_none_iff.mp htd.1)
  have hui := Nat.le_antisymm huw.2 (Frame.current_eq_none_iff.mp hud.1)
  have hindex : t.top.index = u.top.index := by
    rw [hti, hui, (Pattern.group.inj hgroup).2.2]
  have htop := Frame.eq_of_group_eq hgroup hindex
  unfold Thread.place
  rw [h.1, h.2, htop, htd.2, hud.2]

section Done
variable (hroots : Rooted roots)
include hroots

theorem Placed.shape_eq (h : Placed roots t) (ht : t.outer = []) : t.top.shape = .sequence := by
  obtain ⟨root, hroot, hwithin⟩ := h
  rw [ht] at hwithin
  obtain ⟨hshape, -⟩ := hroots root (List.mem_of_getElem? hroot)
  exact (Pattern.group.inj hwithin.1).2.1.trans hshape

/-- The last item of a pattern that has just been done is the one that was passed. -/
theorem getLast?_of_done (hu : Placed roots u) (hdone : u.Done) {f : Frame} {p : Pattern}
    (htop : u.top = f.advance) (hp : f.current = some p) : u.top.items.getLast? = some p := by
  have hshape := hu.shape_eq hroots hdone.2
  have hgroup := Pattern.group.inj (Frame.group_advance f)
  rw [htop] at hshape ⊢
  refine Frame.getLast?_items_of_advance hp ?_ (htop ▸ hdone.1)
  rw [← hgroup.2.1, hshape]
  exact Shape.noConfusion

theorem not_endsOnInput_of_follows (ht : Placed roots t) (h : t.Follows index atEnd u)
    (hdone : u.Done) : ¬u.EndsOnInput := by
  have hu := ht.follows h
  intro hends
  cases h with
  | skip hcur =>
    have hlast := getLast?_of_done hroots hu hdone rfl hcur
    cases hends _ hlast
  | anchor hcur _ =>
    have hlast := getLast?_of_done hroots hu hdone rfl hcur
    cases hends _ hlast
  | enter _ _ => cases hdone.2
  | leave hcur ho =>
    obtain ⟨root, -, hwithin⟩ := ht
    rw [ho] at hwithin
    have hlast := getLast?_of_done hroots hu hdone rfl hwithin.1
    cases hends _ hlast
  | restart _ ho _ => exact ho hdone.2

theorem endsOnInput_of_consume {input : Node} (ht : Placed roots t)
    (h : t.consume input = .ok (some u)) (hdone : u.Done) : u.EndsOnInput := by
  have hu := ht.consume h
  obtain ⟨condition, hcur, -, rfl⟩ := Thread.consume_eq_some h
  have hlast := getLast?_of_done hroots hu hdone rfl hcur
  intro p hp
  rw [hlast] at hp
  cases hp
  rfl

end Done

/-- What settling makes of threads belongs to their attempts. -/
theorem attempt_of_settle (h : settle index atEnd seen parked threads = .ok settled) :
    (∀ w ∈ settled.waiting, ∃ q ∈ threads, w.SameAttempt q) ∧
      ∀ m ∈ settled.matched, ∃ q ∈ threads, m.SameAttempt q := by
  obtain ⟨hwaiting, hmatched⟩ := settle_preserves (P := fun t => ∃ q ∈ threads, t.SameAttempt q)
    (fun t u ⟨q, hq, hstart, hpattern⟩ hu =>
      ⟨q, hq, hu.start_eq.trans hstart, hu.pattern_eq.trans hpattern⟩)
    (fun t ht => ⟨t, ht, rfl, rfl⟩) h
  exact ⟨fun w hw => (hwaiting w hw).1, fun m hm => (hmatched m hm).1⟩

/-- Threads in the order of their attempts. A pattern of an attempt is done in at most one of them,
and in none that can still come up anew. -/
structure Ordered (roots : List Frame) (seen : Digests) (threads : List Thread) : Prop where
  placed : ∀ t ∈ threads, Placed roots t
  sorted : threads.Pairwise fun t u => ¬u.Precedes t
  single : threads.Pairwise fun t u => t.Done → u.Done → ¬t.SameAttempt u
  met : ∀ t ∈ threads, t.Done → ¬t.EndsOnInput → seen.contains t.digest = true

theorem Ordered.tail (h : Ordered roots seen (t :: threads)) : Ordered roots seen threads where
  placed := fun u hu => h.placed u (.tail _ hu)
  sorted := h.sorted.of_cons
  single := h.single.of_cons
  met := fun u hu => h.met u (.tail _ hu)

/-- The successors of the first thread may take its place. -/
theorem Ordered.replace (hroots : Rooted roots) {next : List Thread}
    (h : Ordered roots seen (t :: threads)) (hw : ¬t.awaitsInput = true)
    (hm : t.move index atEnd = .ok (.threads next)) :
    Ordered roots (keepNew seen next).2 ((keepNew seen next).1 ++ threads) := by
  have ht := h.placed t (.head _)
  have hfollows : ∀ u ∈ (keepNew seen next).1, t.Follows index atEnd u := fun u hu =>
    Thread.follows_of_mem_move (by simpa using hw) hm ((keepNew_sublist seen next).subset hu)
  have hsame : ∀ u ∈ (keepNew seen next).1, u.SameAttempt t := fun u hu =>
    ⟨(hfollows u hu).start_eq, (hfollows u hu).pattern_eq⟩
  have hplaced : ∀ u ∈ (keepNew seen next).1, Placed roots u := fun u hu =>
    ht.follows (hfollows u hu)
  constructor
  · intro u hu
    rcases List.mem_append.mp hu with hu | hu
    · exact hplaced u hu
    · exact h.placed u (.tail _ hu)
  · refine List.pairwise_append.mpr ⟨?_, h.sorted.of_cons, ?_⟩
    · apply List.pairwise_of_forall_mem_list
      intro u hu v hv hlt
      obtain ⟨hus, hup⟩ := hsame u hu
      obtain ⟨hvs, hvp⟩ := hsame v hv
      unfold Thread.Precedes at hlt
      omega
    · intro u hu v hv
      exact Thread.not_precedes_of_sameAttempt (List.rel_of_pairwise_cons h.sorted hv) ⟨rfl, rfl⟩
        (hsame u hu)
  · refine List.pairwise_append.mpr ⟨?_, h.single.of_cons, ?_⟩
    · refine keepNew_pairwise.imp_of_mem fun hu hv hne hud hvd huv => hne ?_
      exact Thread.digest_eq_of_place_eq ((hplaced _ hu).place_eq (hplaced _ hv) hud hvd huv)
    · intro u hu v hv hud hvd huv
      have hplace := (hplaced u hu).place_eq (h.placed v (.tail _ hv)) hud hvd huv
      have hends : ¬v.EndsOnInput := fun hends =>
        not_endsOnInput_of_follows hroots ht (hfollows u hu) hud (hends.of_place_eq hplace)
      have hseen := h.met v (.tail _ hv) hvd hends
      rw [← Thread.digest_eq_of_place_eq hplace, keepNew_fresh u hu] at hseen
      cases hseen
  · intro u hu hud hends
    rcases List.mem_append.mp hu with hu | hu
    · exact contains_keepNew.mpr (.inr ⟨u, hu, rfl⟩)
    · exact contains_keepNew.mpr (.inl (h.met u (.tail _ hu) hud hends))

/-- A thread that is done comes before the matches of those behind it, also those come up anew. -/
theorem Ordered.precedes {m : Thread} (h : Ordered roots seen (t :: threads)) (ht : t.Done)
    (hm : Placed roots m) (hdone : m.Done) (hattempt : ∃ q ∈ threads, m.SameAttempt q)
    (horigin : m ∈ threads ∨ seen.contains m.digest = false ∧ ¬m.EndsOnInput) :
    t.Precedes m := by
  obtain ⟨q, hq, hsame⟩ := hattempt
  have hafter := Thread.not_precedes_of_sameAttempt (List.rel_of_pairwise_cons h.sorted hq) hsame
    ⟨rfl, rfl⟩
  refine Thread.precedes_of_not hafter fun htm => ?_
  rcases horigin with hmem | ⟨hfresh, hends⟩
  · exact List.rel_of_pairwise_cons h.single hmem ht hdone htm
  · have hplace := (h.placed t (.head _)).place_eq hm ht hdone htm
    have hseen := h.met t (.head _) ht fun h => hends (h.of_place_eq hplace.symm)
    rw [Thread.digest_eq_of_place_eq hplace, hfresh] at hseen
    cases hseen

/-- Threads in order settle in order, and every match is of one of them or has come up anew. -/
theorem settle_ordered (hroots : Rooted roots) (hthreads : Ordered roots seen threads)
    (h : settle index atEnd seen parked threads = .ok settled) :
    (settled.waiting.Pairwise fun t u => ¬u.Precedes t) ∧
      settled.matched.Pairwise Thread.Precedes ∧
      ∀ m ∈ settled.matched,
        m ∈ threads ∨ seen.contains m.digest = false ∧ ¬m.EndsOnInput := by
  replace h := settles_of_settle h
  induction h with
  | nil => exact ⟨.nil, .nil, List.forall_mem_nil _⟩
  | dropped hw hp h ih =>
    obtain ⟨hwaiting, hmatched, horigin⟩ := ih hthreads.tail
    exact ⟨hwaiting, hmatched, fun m hm => (horigin m hm).imp_left (.tail _)⟩
  | waiting hw hp h ih =>
    obtain ⟨hwaiting, hmatched, horigin⟩ := ih hthreads.tail
    refine ⟨List.pairwise_cons.mpr ⟨fun w hwm => ?_, hwaiting⟩, hmatched,
      fun m hm => (horigin m hm).imp_left (.tail _)⟩
    obtain ⟨q, hq, hsame⟩ := (attempt_of_settle h.settle_eq).1 w hwm
    have hqt := List.rel_of_pairwise_cons hthreads.sorted hq
    exact Thread.not_precedes_of_sameAttempt hqt hsame ⟨rfl, rfl⟩
  | matched hw hm h ih =>
    have hdone := Thread.move_eq_matched_iff.mp hm
    obtain ⟨hwaiting, hmatched, horigin⟩ := ih hthreads.tail
    obtain ⟨-, hall⟩ := settle_placed hthreads.tail.placed h.settle_eq
    refine ⟨hwaiting, List.pairwise_cons.mpr ⟨fun m hm => ?_, hmatched⟩, ?_⟩
    · obtain ⟨hplaced, hmdone⟩ := hall m hm
      exact hthreads.precedes hdone hplaced hmdone ((attempt_of_settle h.settle_eq).2 m hm)
        (horigin m hm)
    · intro m hm
      rcases List.mem_cons.mp hm with rfl | hm
      · exact .inl (.head _)
      · exact (horigin m hm).imp_left (.tail _)
  | moved hw hm h ih =>
    obtain ⟨hwaiting, hmatched, horigin⟩ := ih (hthreads.replace hroots hw hm)
    refine ⟨hwaiting, hmatched, fun m hmm => ?_⟩
    rcases horigin m hmm with hmem | ⟨hfresh, hends⟩
    · rcases List.mem_append.mp hmem with hkept | hrest
      · have hfollows := Thread.follows_of_mem_move (by simpa using hw) hm
          ((keepNew_sublist _ _).subset hkept)
        obtain ⟨-, hdone⟩ :=
          (settle_placed (hthreads.replace hroots hw hm).placed h.settle_eq).2 m hmm
        exact .inr ⟨keepNew_fresh m hkept, not_endsOnInput_of_follows hroots
          (hthreads.placed _ (.head _)) hfollows hdone⟩
      · exact .inl (.tail _ hrest)
    · exact .inr ⟨not_contains_of_keepNew hfresh, hends⟩

section Run
variable {source : List Node} {live : List Thread}

theorem consumeAll_pairwise {input : Node} {consumed : List Thread}
    (h : consumeAll input threads = .ok consumed)
    (hsorted : threads.Pairwise fun t u => ¬u.Precedes t) :
    consumed.Pairwise fun t u => ¬u.Precedes t := by
  induction threads generalizing consumed with
  | nil =>
    cases h
    exact .nil
  | cons t rest ih =>
    obtain ⟨next, others, hnext, hothers, rfl⟩ := consumeAll_cons_eq_ok h
    have hrest := ih hothers hsorted.of_cons
    cases next with
    | none => exact hrest
    | some u =>
      refine List.pairwise_cons.mpr ⟨fun w hw => ?_, hrest⟩
      obtain ⟨q, hq, hconsume⟩ := (mem_consumeAll hothers).mp hw
      exact Thread.not_precedes_of_sameAttempt (List.rel_of_pairwise_cons hsorted hq)
        (Thread.sameAttempt_of_consume hconsume) (Thread.sameAttempt_of_consume hnext)

/-- Threads that are alive before an offset: in order, no two in one place, and with what they have
done, they have done on the node before. -/
structure Alive (roots : List Frame) (index : Nat) (live : List Thread) : Prop where
  placed : ∀ t ∈ live, Placed roots t
  sorted : live.Pairwise fun t u => ¬u.Precedes t
  apart : live.Pairwise fun t u => t.digest ≠ u.digest
  early : ∀ t ∈ live, t.start < index
  fed : ∀ t ∈ live, t.Done → t.EndsOnInput

/-- No threads are alive before the first offset. -/
theorem alive_nil (roots : List Frame) : Alive roots 0 [] where
  placed := List.forall_mem_nil _
  sorted := .nil
  apart := .nil
  early := List.forall_mem_nil _
  fed := List.forall_mem_nil _

theorem Alive.ordered (h : Alive roots index live) : Ordered roots ∅ live where
  placed := h.placed
  sorted := h.sorted
  single := h.apart.imp_of_mem fun ht hu hne htd hud htu => hne
    (Thread.digest_eq_of_place_eq ((h.placed _ ht).place_eq (h.placed _ hu) htd hud htu))
  met := fun t ht htd hends => absurd (h.fed t ht htd) hends

theorem pairwise_seeds {R : Thread → Thread → Prop}
    (h : ∀ pattern pattern' root root', pattern < pattern' →
      R (.seed index pattern root) (.seed index pattern' root')) :
    (seeds roots index).Pairwise R := by
  apply List.pairwise_iff_getElem.mpr
  intro i j hi hj hij
  simp only [seeds, List.getElem_mapIdx]
  exact h _ _ _ _ hij

/-- New attempts come after those that are alive. -/
theorem Alive.ordered_seeds (hroots : Rooted roots) (h : Alive roots index live) :
    Ordered roots ∅ (live ++ seeds roots index) where
  placed := placed_live hroots h.placed
  sorted := by
    refine List.pairwise_append.mpr ⟨h.sorted, pairwise_seeds ?_, ?_⟩
    · intro pattern pattern' root root' hlt hprec
      simp only [Thread.Precedes, Thread.seed] at hprec
      omega
    · intro t ht u hu hprec
      obtain ⟨pattern, root, -, rfl⟩ := mem_seeds.mp hu
      have hearly := h.early t ht
      simp only [Thread.Precedes, Thread.seed] at hprec
      omega
  single := by
    refine List.pairwise_append.mpr ⟨h.ordered.single, pairwise_seeds ?_, ?_⟩
    · intro pattern pattern' root root' hlt _ _ hsame
      exact hlt.ne hsame.2
    · intro t ht u hu _ _ hsame
      obtain ⟨pattern, root, -, rfl⟩ := mem_seeds.mp hu
      exact (h.early t ht).ne hsame.1
  met := by
    intro t ht hdone hends
    rcases List.mem_append.mp ht with ht | ht
    · exact absurd (h.fed t ht hdone) hends
    · obtain ⟨pattern, root, hroot, rfl⟩ := mem_seeds.mp ht
      obtain ⟨-, hindex, -⟩ := hroots root (List.mem_of_getElem? hroot)
      exact absurd (Thread.endsOnInput_seed hindex hdone) hends

/-- An offset's matches are in order, and so are the threads alive after its node. -/
theorem advance_ordered (hroots : Rooted roots) (hlive : Alive roots index live) {input : Node}
    {step : Advance} (h : advance roots index live input = .ok step) :
    step.matched.Pairwise Thread.Precedes ∧ Alive roots (index + 1) step.live := by
  obtain ⟨settled, consumed, hsettled, hconsumed, rfl⟩ := advance_eq_ok h
  have hthreads := hlive.ordered_seeds hroots
  obtain ⟨hwaiting, hmatched, -⟩ := settle_ordered hroots hthreads hsettled
  obtain ⟨hplaced, -⟩ := settle_placed hthreads.placed hsettled
  have hsub := keepNew_sublist ∅ consumed
  have hfrom : ∀ t ∈ (keepNew ∅ consumed).1, ∃ w ∈ settled.waiting,
      w.consume input = .ok (some t) := fun t ht =>
    (mem_consumeAll hconsumed).mp (hsub.subset ht)
  refine ⟨hmatched, ?_, (consumeAll_pairwise hconsumed hwaiting).sublist hsub, keepNew_pairwise,
    ?_, ?_⟩
  · intro t ht
    obtain ⟨w, hw, hconsume⟩ := hfrom t ht
    exact (hplaced w hw).consume hconsume
  · intro t ht
    obtain ⟨w, hw, hconsume⟩ := hfrom t ht
    obtain ⟨q, hq, hwq⟩ := (attempt_of_settle hsettled).1 w hw
    have hstart : t.start = q.start := (Thread.sameAttempt_of_consume hconsume).1.trans hwq.1
    rw [hstart]
    rcases List.mem_append.mp hq with hq | hq
    · exact Nat.lt_succ_of_lt (hlive.early q hq)
    · obtain ⟨pattern, root, -, rfl⟩ := mem_seeds.mp hq
      exact Nat.lt_succ_self index
  · intro t ht hdone
    obtain ⟨w, hw, hconsume⟩ := hfrom t ht
    exact endsOnInput_of_consume hroots (hplaced w hw) hconsume hdone

theorem found_precedes (source : List Node) (i : Nat) (h : t.Precedes u) :
    (found source i t).Precedes (found source i u) :=
  .inr ⟨rfl, h⟩

theorem found_payload_lt (h : Placed roots t) (source : List Node) (i : Nat) :
    (found source i t).payload < roots.length := by
  obtain ⟨root, hroot, -⟩ := h
  exact (List.getElem?_eq_some_iff.mp hroot).1

theorem run_ordered (hroots : Rooted roots) {budget : Option Nat} {rest : List Node}
    {results : List (Match Nat)} (hlive : Alive roots index live)
    (h : run budget source roots index live rest = .ok results) :
    results.Pairwise Match.Precedes ∧
      ∀ m ∈ results, index ≤ m.stop ∧ m.payload < roots.length := by
  induction rest generalizing index live results with
  | nil =>
    obtain ⟨settled, hsettled, rfl⟩ := run_nil_eq_ok h
    obtain ⟨-, hmatched, -⟩ := settle_ordered hroots hlive.ordered hsettled
    obtain ⟨-, hall⟩ := settle_placed hlive.placed hsettled
    refine ⟨List.pairwise_map.mpr (hmatched.imp (found_precedes source index)), fun m hm => ?_⟩
    obtain ⟨t, ht, rfl⟩ := List.mem_map.mp hm
    exact ⟨Nat.le_refl _, found_payload_lt (hall t ht).1 source index⟩
  | cons input rest ih =>
    obtain ⟨step, later, hstep, hlater, rfl⟩ := run_cons_eq_ok h
    obtain ⟨hmatched, hnext⟩ := advance_ordered hroots hlive hstep
    obtain ⟨hsorted, hbounds⟩ := ih hnext hlater
    have hfirst : ∀ m ∈ step.matched.map (found source index),
        m.stop = index ∧ m.payload < roots.length := by
      intro m hm
      obtain ⟨t, ht, rfl⟩ := List.mem_map.mp hm
      obtain ⟨settled, consumed, hsettled, -, rfl⟩ := advance_eq_ok hstep
      obtain ⟨-, hall⟩ := settle_placed (placed_live hroots hlive.placed) hsettled
      exact ⟨rfl, found_payload_lt (hall t ht).1 source index⟩
    constructor
    · refine List.pairwise_append.mpr
        ⟨List.pairwise_map.mpr (hmatched.imp (found_precedes source index)), hsorted, ?_⟩
      intro a ha b hb
      have hstop := (hfirst a ha).1
      have hlate := (hbounds b hb).1
      exact .inl (by omega)
    · intro m hm
      rcases List.mem_append.mp hm with hm | hm
      · exact ⟨(hfirst m hm).1.ge, (hfirst m hm).2⟩
      · exact ⟨Nat.le_of_succ_le (hbounds m hm).1, (hbounds m hm).2⟩

theorem exists_found {α : Type} (source : List Node) (patterns : List (Blueprint × α))
    (marks : Nat → Nat → UInt64) :
    ∃ found : List (Match (Fin patterns.length)),
      run none source (rootFrames marks (patterns.map fun p => p.1.node)) 0 [] source =
        .ok (found.map fun m => { m with payload := m.payload.val }) ∧
      search none source (patterns.map fun p => (p.1.node, p.2)) marks =
        .ok (found.map fun m => { m with payload := (patterns.get m.payload).2 }) := by
  have hroots := rooted_blueprints patterns marks
  obtain ⟨results, hrun⟩ := run_ok hroots source (List.forall_mem_nil _) source
  obtain ⟨-, hbounds⟩ := run_ordered hroots (alive_nil _) hrun
  have hpayload : ∀ m ∈ results, m.payload < patterns.length := by
    intro m hm
    simpa using (hbounds m hm).2
  obtain ⟨found, rfl, hsearch⟩ := exists_search_eq_ok hrun hpayload
  exact ⟨found, hrun, hsearch⟩

end Run

end Search

/-- Searching without a budget for built patterns succeeds, and its matches are strictly in order:
by where they stop, then by where they start, then by the place of their pattern in the list. -/
theorem search_ordered {α : Type} (source : List Node) (patterns : List (Blueprint × α))
    (marks : Nat → Nat → UInt64) :
    ∃ found : List (Match (Fin patterns.length)),
      search none source (patterns.map fun p => (p.1.node, p.2)) marks =
        .ok (found.map fun m => { m with payload := (patterns.get m.payload).2 }) ∧
      found.Pairwise Match.Precedes := by
  have hroots := Search.rooted_blueprints patterns marks
  obtain ⟨found, hrun, hsearch⟩ := Search.exists_found source patterns marks
  obtain ⟨hsorted, -⟩ := Search.run_ordered hroots (Search.alive_nil _) hrun
  rw [List.pairwise_map] at hsorted
  exact ⟨found, hsearch, hsorted⟩

end Homoicon
