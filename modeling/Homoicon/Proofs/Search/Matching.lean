import Homoicon.Proofs.Search.Run
import Homoicon.Proofs.Thread.Completion
import Mathlib.Data.List.Nodup

/-! A search reports the spans that its patterns derive, and no others. -/
namespace Homoicon

namespace Thread
variable {source : List Node} {t : Thread} {i : Nat}

theorem completes_of_done (ht : t.Done) (hshape : t.top.shape = .sequence) :
    t.Completes source i ⟨i, t.records⟩ := by
  obtain ⟨hcur, houter⟩ := ht
  have hrest := @Frame.rest_of_end source ⟨i, t.records⟩ t.top hcur
  rw [hshape] at hrest
  refine ⟨_, hrest, ?_⟩
  rw [houter]
  rfl

end Thread

namespace Search
open Pattern (TakesAll)

variable {source : List Node} {roots : List Frame} {e start pattern : Nat} {t : Thread}

theorem Placed.of_done (h : Placed roots t) (ht : t.Done) :
    ∃ root, roots[t.pattern]? = some root ∧ t.top.group = root.group := by
  obtain ⟨root, hroot, hwithin⟩ := h
  rw [ht.2] at hwithin
  exact ⟨root, hroot, hwithin.1⟩

/-- An attempt ends a pattern with the records of any way in which its root takes what is between,
and with no others. -/
theorem reached_done_iff (hroots : Rooted roots) {records : Records} :
    (∃ t, Reached source roots e t ∧ t.Done ∧ t.start = start ∧ t.pattern = pattern ∧
      t.records = records) ↔
    start < source.length ∧ ∃ root, roots[pattern]? = some root ∧
      TakesAll source root.items ⟨start, []⟩ ⟨e, records⟩ := by
  constructor
  · rintro ⟨t, ht, hdone, rfl, rfl, rfl⟩
    obtain ⟨root, hroot, hgroup⟩ := (ht.placed hroots).of_done hdone
    obtain ⟨hshape, hindex, -⟩ := hroots root (List.mem_of_getElem? hroot)
    have htop : t.top.shape = .sequence := (Pattern.group.inj hgroup).2.1.trans hshape
    obtain ⟨hstart, root', hroot', hpath⟩ := ht.path
    cases hroot.symm.trans hroot'
    obtain ⟨m, hrest, hm⟩ :=
      Thread.completes_of_steps hpath (Thread.completes_of_done hdone htop)
    obtain rfl : m = ⟨e, t.records⟩ := hm
    refine ⟨hstart, root, hroot, ?_⟩
    simpa only [Thread.seed, Frame.Rest, hshape, hindex, List.drop_zero] using hrest
  · rintro ⟨hs, root, hroot, htakes⟩
    obtain ⟨hshape, hindex, -⟩ := hroots root (List.mem_of_getElem? hroot)
    have hsteps := Thread.steps_of_takesAll root.items ⟨start, []⟩ ⟨e, records⟩ htakes
      (.seed start pattern root) 0 (by simp [Thread.seed, hshape]) rfl (Nat.zero_le _)
    have hseed : (Thread.seed start pattern root).moved 0 [] = .seed start pattern root := by
      cases root
      simp_all [Thread.moved, Thread.seed]
    simp only [hseed] at hsteps
    exact ⟨_, ⟨start, pattern, root, hs, hroot, hsteps⟩, ⟨Thread.current_moved_end _ _, rfl⟩,
      rfl, rfl, rfl⟩

/-- The matches of a search name the attempts that come to the end of their patterns. -/
theorem run_reports_iff (hroots : Rooted roots) (hdistinct : Distinct source roots)
    {budget : Option Nat} {results : List (Match Nat)}
    (h : run budget source roots 0 [] source = .ok results) :
    (∃ m ∈ results, m.payload = pattern ∧ m.start = start ∧ m.stop = e) ↔
      start < source.length ∧ ∃ root, roots[pattern]? = some root ∧
        ∃ records, TakesAll source root.items ⟨start, []⟩ ⟨e, records⟩ := by
  constructor
  · rintro ⟨m, hm, rfl, rfl, rfl⟩
    obtain ⟨e, t, ht, hdone, rfl⟩ := run_sound rfl (Nat.zero_le _) (List.forall_mem_nil _) h m hm
    obtain ⟨hs, root, hroot, htakes⟩ :=
      (reached_done_iff hroots).mp ⟨t, ht, hdone, rfl, rfl, rfl⟩
    exact ⟨hs, root, hroot, t.records, htakes⟩
  · rintro ⟨hs, root, hroot, records, htakes⟩
    obtain ⟨t, ht, hdone, rfl, rfl, -⟩ :=
      (reached_done_iff hroots).mpr ⟨hs, root, hroot, htakes⟩
    have hcovers : Covers source roots 0 [] := fun t ⟨j, _, _, hj, _⟩ => by omega
    exact run_complete hdistinct rfl (Nat.zero_le _) (List.forall_mem_nil _) hcovers h
      (Nat.zero_le _) ht hdone

end Search

theorem Blueprint.exists_takesAll_rootFrame_iff {source : List Node} (b : Blueprint)
    {marks : Nat → UInt64} {i j : Nat} :
    (∃ records,
        Pattern.TakesAll source (Search.rootFrame marks b.node).items ⟨i, []⟩ ⟨j, records⟩) ↔
      b.Derives source i j := by
  obtain ⟨mark, hframe⟩ := b.rootFrame_node marks
  rw [hframe, ← derivesAll_parts]
  constructor
  · rintro ⟨records, htakes⟩
    exact derivesAll_of_takes b.parts 1 htakes
  · intro h
    exact takesAll_of_derives b.parts 1 h []

namespace Search
open Thread (Step)

/-- Places that steps do not lead out of, all of different words, are told apart. -/
theorem distinct_of_places {source : List Node} {roots : List Frame} {places : List Thread}
    (hseed : ∀ start pattern root, start < source.length → roots[pattern]? = some root →
      .seed start pattern root ∈ places)
    (hstep : ∀ t ∈ places, ∀ i j u, Step source (i, t) (j, u) → u.place ∈ places)
    (hne : (places.map Thread.digest).Nodup) : Distinct source roots := by
  have hplace : ∀ {i t}, Reached source roots i t → t.place ∈ places := by
    intro i t h
    refine h.induct (P := fun _ t => t.place ∈ places) hseed fun i t j u ih hu => ?_
    cases hu with
    | move hu =>
      obtain ⟨w, hw, hwu⟩ := hu.of_place_eq (v := t.place) rfl
      exact hwu ▸ hstep _ ih _ _ _ (.move hw)
    | consume hi hu =>
      obtain ⟨w, hw, hwu⟩ := Thread.consume_of_place_eq (v := t.place) hu rfl
      exact hwu ▸ hstep _ ih _ _ _ (.consume hi hw)
  intro i t j u ht hu hdigest
  exact List.inj_on_of_nodup_map hne (hplace ht) (hplace hu) hdigest

/-- Runs of names in a row, each left as soon as it can be, the last of them recorded. -/
def nameRuns : Blueprint :=
  .repeated [.capture "run" (.repeated [.matchType .nameSymbol] false)] true

/-- The places of an attempt at `nameRuns`, by the marks of its groups. -/
def nameRunsPlaces (root runs capture run : UInt64) (start : Nat) : List Thread :=
  let name := Pattern.test (.ofKind (some .nameSymbol))
  let inner := Pattern.group run (.repetition false) [name]
  let recorded := Pattern.group capture (.capture "run") [inner]
  let first := Thread.seed start 0
    ⟨root, .sequence, [.group runs (.repetition true) [recorded]], 0⟩
  let round := first.enter runs (.repetition true) [recorded] 0
  let opened := round.enter capture (.capture "run") [inner] 0
  let inside := opened.enter run (.repetition false) [name] 0
  [first, round, opened, inside, inside.pass, opened.pass, round.pass, first.pass]

theorem step_nameRunsPlaces {source : List Node} {root runs capture run : UInt64} {start : Nat} :
    ∀ t ∈ nameRunsPlaces root runs capture run start, ∀ i j u, Step source (i, t) (j, u) →
      u.place ∈ nameRunsPlaces root runs capture run start := by
  intro t ht i j u hu
  simp only [nameRunsPlaces, List.mem_cons, List.not_mem_nil, or_false] at ht ⊢
  cases hu with
  | consume hi h =>
    obtain ⟨condition, hcur, -, rfl⟩ := Thread.consume_eq_some h
    rcases ht with rfl | rfl | rfl | rfl | rfl | rfl | rfl | rfl <;> cases hcur
    exact .inr (.inr (.inr (.inr (.inl rfl))))
  | move h =>
    obtain ⟨next, hnext, hu⟩ := h.mem_move
    rcases ht with rfl | rfl | rfl | rfl | rfl | rfl | rfl | rfl <;> cases hnext
    · rw [List.mem_singleton.mp hu]
      exact .inr (.inl rfl)
    · rw [List.mem_singleton.mp hu]
      exact .inr (.inr (.inl rfl))
    · rw [List.mem_singleton.mp hu]
      exact .inr (.inr (.inr (.inl rfl)))
    · cases h.awaitsInput_eq
    · rcases List.mem_pair.mp hu with rfl | rfl
      · exact .inr (.inr (.inr (.inr (.inr (.inl rfl)))))
      · exact .inr (.inr (.inr (.inl rfl)))
    · rw [List.mem_singleton.mp hu]
      exact .inr (.inr (.inr (.inr (.inr (.inr (.inl rfl))))))
    · rcases List.mem_pair.mp hu with rfl | rfl
      · exact .inr (.inl rfl)
      · exact .inr (.inr (.inr (.inr (.inr (.inr (.inr rfl))))))

def twoNames : List Node := [.name "x" .unknown, .name "y" .unknown]

theorem derives_nameRuns : nameRuns.Derives twoNames 0 2 := by
  have hfirst : Blueprint.Derives twoNames (.matchType .nameSymbol) 0 1 := ⟨rfl, _, rfl, rfl⟩
  have hsecond : Blueprint.Derives twoNames (.matchType .nameSymbol) 1 2 := ⟨rfl, _, rfl, rfl⟩
  exact .tail (.single ⟨1, .single ⟨1, hfirst, rfl⟩, rfl⟩) ⟨2, .single ⟨2, hsecond, rfl⟩, rfl⟩

theorem distinct_nameRuns_of_length_le {source : List Node} {marks : Nat → Nat → UInt64}
    (h : source.length ≤ 2) : Distinct source (rootFrames marks [nameRuns.node]) := by
  let run := Form.repeated [Form.matchType .nameSymbol] false
  let places := nameRunsPlaces (root nameRuns.node).hash.get! nameRuns.node.hash.get!
    (Form.capture "run" run).hash.get! run.hash.get!
  refine @distinct_of_places _ _ (places 0 ++ places 1) ?_ ?_ (by decide +kernel)
  · intro start pattern frame hs hframe
    obtain ⟨hlt, rfl⟩ := List.getElem?_eq_some_iff.mp hframe
    obtain rfl : pattern = 0 := by simpa using hlt
    match start, Nat.lt_of_lt_of_le hs h with
    | 0, _ => exact .head _
    | 1, _ => exact List.mem_append_right _ (.head _)
  · intro t ht i j u hu
    rcases List.mem_append.mp ht with ht | ht
    · exact List.mem_append_left _ (step_nameRunsPlaces t ht i j u hu)
    · exact List.mem_append_right _ (step_nameRunsPlaces t ht i j u hu)

theorem distinct_nameRuns {marks : Nat → Nat → UInt64} :
    Distinct twoNames (rootFrames marks [nameRuns.node]) :=
  distinct_nameRuns_of_length_le (Nat.le_refl 2)

end Search

/-- Searching without a budget for built patterns, none of whose places are taken for each other,
succeeds and reports exactly the spans that the patterns derive from the offsets of nodes. -/
theorem search_reports_iff_derives {α : Type} (source : List Node)
    (patterns : List (Blueprint × α)) (marks : Nat → Nat → UInt64)
    (hdistinct :
      Search.Distinct source (Search.rootFrames marks (patterns.map fun p => p.1.node))) :
    ∃ results, search none source (patterns.map fun p => (p.1.node, p.2)) marks = .ok results ∧
      ∀ payload start stop,
        (∃ m ∈ results, m.payload = payload ∧ m.start = start ∧ m.stop = stop) ↔
          start < source.length ∧
            ∃ b, (b, payload) ∈ patterns ∧ b.Derives source start stop := by
  have hroots := Search.rooted_blueprints patterns marks
  obtain ⟨found, hfound⟩ :=
    Search.run_ok hroots source (List.forall_mem_nil _) source
  have hreports := fun pattern start stop =>
    @Search.run_reports_iff source _ stop start pattern hroots hdistinct none found hfound
  refine ⟨_, search_eq_ok.mpr ⟨found, hfound, rfl⟩, fun payload start stop => ?_⟩
  constructor
  · rintro ⟨m, hm, rfl, rfl, rfl⟩
    obtain ⟨m', hm', heq⟩ := List.mem_filterMap.mp hm
    obtain ⟨⟨b, payload⟩, hb, rfl⟩ := Option.map_eq_some_iff.mp heq
    obtain ⟨hs, root, hroot, htakes⟩ := (hreports _ _ _).mp ⟨m', hm', rfl, rfl, rfl⟩
    rw [Search.getElem?_rootFrames, hb] at hroot
    cases hroot
    exact ⟨hs, b, List.mem_of_getElem? hb, b.exists_takesAll_rootFrame_iff.mp htakes⟩
  · rintro ⟨hs, b, hb, hderives⟩
    obtain ⟨n, hn⟩ := List.getElem?_of_mem hb
    have hroot : (Search.rootFrames marks (patterns.map fun p => p.1.node))[n]? =
        some (Search.rootFrame (marks n) b.node) := by
      rw [Search.getElem?_rootFrames, hn]
      rfl
    obtain ⟨m, hm, hpayload, hstart, hstop⟩ := (hreports n start stop).mpr
      ⟨hs, _, hroot, b.exists_takesAll_rootFrame_iff.mpr hderives⟩
    refine ⟨{ m with payload }, List.mem_filterMap.mpr ⟨m, hm, ?_⟩, rfl, hstart, hstop⟩
    rw [hpayload, hn]
    rfl

theorem search_nameRuns_reports :
    ∃ results, search none Search.twoNames [(Search.nameRuns.node, ())] = .ok results ∧
      ∃ m ∈ results, m.payload = () ∧ m.start = 0 ∧ m.stop = 2 := by
  obtain ⟨results, hsearch, hreports⟩ := search_reports_iff_derives Search.twoNames
    [(Search.nameRuns, ())] _ Search.distinct_nameRuns
  exact ⟨results, hsearch, (hreports () 0 2).mpr
    ⟨Nat.two_pos, Search.nameRuns, .head _, Search.derives_nameRuns⟩⟩

end Homoicon
