import Homoicon.Proofs.Search.Foremost
import Homoicon.Proofs.Search.Matching
import Homoicon.Proofs.Thread.Backtrack

/-! The bindings of the matches that a search reports. -/
namespace Homoicon

def Attempt.bindings (source : List Node) (s : Attempt) : List (String × Binding) :=
  s.records.filterMap fun (name, record) =>
    (record.binding? source).map fun binding => (name, binding)

/-- The ways in which a whole pattern matches a span, in the order in which a depth-first search
finds them. -/
def Blueprint.attemptsOn (source : List Node) (b : Blueprint) (start stop : Nat) : List Attempt :=
  (b.attemptsFrom source start).filter (·.offset = stop)

theorem head?_eq_iff_of_find? {α : Type} {p : α → Bool} {as : List α} {a : α}
    (h : as.find? p = some a) : as.head? = some a ↔ ∀ b, as.head? = some b → p b = true := by
  cases as with
  | nil => cases h
  | cons b as =>
    constructor
    · intro heq c hc
      cases hc.symm.trans heq
      exact List.find?_some h
    · intro hp
      have hb := hp b rfl
      rw [List.find?_cons_of_pos hb] at h
      exact h

namespace Search
variable {source : List Node} {roots : List Frame} {e : Nat} {v : Visit} {x : Trail}

theorem productive_blueprints {α : Type} {patterns : List (Blueprint × α)}
    (h : ∀ p ∈ patterns, p.1.Productive) (marks : Nat → Nat → UInt64) :
    Productive (rootFrames marks (patterns.map fun p => p.1.node)) := by
  intro root hroot
  obtain ⟨p, hp, n, rfl⟩ := rootFrame_of_mem hroot
  obtain ⟨mark, hframe⟩ := p.1.rootFrame_node (marks n)
  rw [hframe]
  exact ⟨trivial, Blueprint.productiveAll_ofNodes p.1.parts 1 (h p hp).parts⟩

/-- The first trail to the end of a built pattern is of the first attempt that has not returned. -/
theorem Foremost.find?_attemptsOn (h : Foremost source roots e v x) {b : Blueprint}
    (hb : b.Productive) {marks : Nat → UInt64}
    (hroot : roots[v.thread.pattern]? = some (rootFrame marks b.node)) :
    ∃ kept, (b.attemptsOn source v.thread.start e).find? (fun s => !s.returned) = some kept ∧
      (found source e v.thread).bindings = kept.bindings source := by
  obtain ⟨⟨hx, hthread, hxe, hreturned⟩, hdone, hfirst⟩ := h
  obtain ⟨route, haddress⟩ := address_eq hx
  rw [hthread] at haddress
  rw [haddress] at hx hfirst
  obtain ⟨start, pattern, root, route', heq, hs, hroot', hroute⟩ := trailAt_eq_some.mp hx
  obtain ⟨rfl, rfl, rfl⟩ :
      v.thread.start = start ∧ v.thread.pattern = pattern ∧ route = route' := by
    simpa using heq
  cases hroot.symm.trans hroot'
  obtain ⟨t, -, houtcomes⟩ := b.outcomes_seed hb (Nat.le_of_lt hs) v.thread.pattern
  have hfind : ((b.attemptsFrom source v.thread.start).map (·.trail t)).find?
      (fun y => decide (y.offset = e) && !y.returned) = some x := by
    refine houtcomes.find?_eq route x hroute (hthread ▸ hdone) (by simp [hxe, hreturned]) ?_
    intro route' y hy hydone hP
    simp only [Bool.and_eq_true, decide_eq_true_iff, Bool.not_eq_true'] at hP
    have htrail : trailAt source roots (v.thread.start :: v.thread.pattern :: route') = some y :=
      trailAt_eq_some.mpr ⟨_, _, _, route', rfl, hs, hroot, hy⟩
    obtain ⟨route'', haddress'⟩ := address_eq htrail
    obtain ⟨hstart, hpattern, -⟩ : v.thread.start = y.thread.start ∧
        v.thread.pattern = y.thread.pattern ∧ route' = route'' := by
      simpa using haddress'
    have hle := hfirst _ y htrail hP.1 hP.2 hydone ⟨hstart.symm, hpattern.symm⟩
    exact Route.le_cons.mp (Route.le_cons.mp hle)
  rw [List.find?_map] at hfind
  obtain ⟨kept, hkept, htrail⟩ := Option.map_eq_some_iff.mp hfind
  refine ⟨kept, ?_, ?_⟩
  · unfold Blueprint.attemptsOn
    rw [List.find?_filter]
    simpa [Attempt.trail, Function.comp_def] using hkept
  · have hrecords : kept.records = v.thread.records := by
      rw [← hthread, ← htrail]
      rfl
    unfold Attempt.bindings
    rw [hrecords]
    rfl

end Search

/-- Searching without a budget for built patterns whose optional and repeated parts take nodes, none
of whose places are taken for each other, reports of each span what the first depth-first attempt
records that has not returned, since its last node, to a lazy repetition which it had left. That is
the first attempt of all exactly where that one has not returned so. -/
theorem search_binds_first_attempt {α : Type} (source : List Node)
    (patterns : List (Blueprint × α)) (marks : Nat → Nat → UInt64)
    (hproductive : ∀ p ∈ patterns, p.1.Productive)
    (hdistinct :
      Search.Distinct source (Search.rootFrames marks (patterns.map fun p => p.1.node))) :
    ∃ found : List (Match (Fin patterns.length)),
      search none source (patterns.map fun p => (p.1.node, p.2)) marks =
        .ok (found.map fun m => { m with payload := (patterns.get m.payload).2 }) ∧
      ∀ m ∈ found, ∃ kept,
        ((patterns.get m.payload).1.attemptsOn source m.start m.stop).find? (fun s => !s.returned) =
          some kept ∧
        m.bindings = kept.bindings source ∧
        (((patterns.get m.payload).1.attemptsOn source m.start m.stop).head? = some kept ↔
          ∀ first,
            ((patterns.get m.payload).1.attemptsOn source m.start m.stop).head? = some first →
              first.returned = false) := by
  have hroots := Search.rooted_blueprints patterns marks
  have hproductive' := Search.productive_blueprints hproductive marks
  obtain ⟨found, hrun, hsearch⟩ := Search.exists_found source patterns marks
  have hforemost := Search.run_foremost hroots hproductive' hdistinct rfl (Nat.zero_le _)
    (Search.continues_nil source _) (Search.alive_nil _) hrun
  refine ⟨found, hsearch, fun m hm => ?_⟩
  obtain ⟨e, v, x, hv, heq⟩ := hforemost _ (List.mem_map_of_mem hm)
  obtain ⟨hpattern, hstart, hstop, hbindings⟩ := Match.mk.inj heq
  have hroot := Search.getElem?_rootFrames_get marks m.payload
  rw [hpattern] at hroot
  have hb : (patterns.get m.payload).1.Productive := hproductive _ (List.get_mem _ _)
  obtain ⟨kept, hkept, hrecorded⟩ := hv.find?_attemptsOn hb hroot
  rw [← hstart, ← hstop] at hkept
  refine ⟨kept, hkept, hbindings.trans hrecorded, ?_⟩
  rw [head?_eq_iff_of_find? hkept]
  simp only [Bool.not_eq_true']

namespace Search

theorem productive_nameRuns : nameRuns.Productive := by
  have hname : ∀ source i j, Blueprint.DerivesAll source [.matchType .nameSymbol] i j → i < j := by
    rintro source i j ⟨k, ⟨rfl, -⟩, hj⟩
    obtain rfl : i + 1 = j := hj
    exact Nat.lt_succ_self i
  have hrun : ∀ source i j, Blueprint.DerivesAll source
      [.capture "run" (.repeated [.matchType .nameSymbol] false)] i j → i < j := by
    rintro source i j ⟨k, hrounds, hj⟩
    obtain rfl : k = j := hj
    replace hrounds :
        Relation.TransGen (Blueprint.DerivesAll source [.matchType .nameSymbol]) i k := hrounds
    induction hrounds with
    | single h => exact hname _ _ _ h
    | tail _ h ih => exact Nat.lt_trans ih (hname _ _ _ h)
  exact ⟨fun source i h => Nat.lt_irrefl i (hrun source i i h),
    ⟨fun source i h => Nat.lt_irrefl i (hname source i i h), trivial, trivial⟩, trivial⟩

theorem exists_match_nameRuns {found : List (Match (Fin 1))}
    (h : search none twoNames [(nameRuns.node, ())] =
      .ok (found.map fun m => { m with payload := () })) :
    ∃ m ∈ found, m.start = 0 ∧ m.stop = 2 := by
  have hroots := rooted_blueprints [(nameRuns, ())] serialMarks
  obtain ⟨results, hresults⟩ := run_ok hroots twoNames (List.forall_mem_nil _) twoNames
  have hreported : ∃ m ∈ results, m.payload = 0 ∧ m.start = 0 ∧ m.stop = 2 :=
    (run_reports_iff hroots distinct_nameRuns hresults).mpr ⟨Nat.two_pos, _, rfl,
      (Blueprint.exists_takesAll_rootFrame_iff nameRuns).mpr derives_nameRuns⟩
  obtain ⟨m, hm, hpayload, hstart, hstop⟩ := hreported
  have heq := h.symm.trans (search_eq_ok.mpr ⟨results, hresults, rfl⟩)
  have hmem : { m with payload := () } ∈ found.map fun m => { m with payload := () } := by
    rw [Except.ok.inj heq]
    exact List.mem_filterMap.mpr ⟨m, hm, by rw [hpayload]; rfl⟩
  obtain ⟨m', hm', hmatch⟩ := List.mem_map.mp hmem
  obtain ⟨-, hstart', hstop', -⟩ := Match.mk.inj hmatch
  exact ⟨m', hm', hstart'.trans hstart, hstop'.trans hstop⟩

end Search

theorem search_nameRuns_binds :
    ∃ found : List (Match (Fin 1)),
      search none Search.twoNames [(Search.nameRuns.node, ())] =
        .ok (found.map fun m => { m with payload := () }) ∧
      (∃ m ∈ found, m.start = 0 ∧ m.stop = 2 ∧ m.bindings = [("run", .many Search.twoNames)]) ∧
      (Search.nameRuns.attemptsOn Search.twoNames 0 2).head?.map (·.bindings Search.twoNames) =
        some [("run", .many [.name "y" .unknown])] := by
  obtain ⟨found, hsearch, hbinds⟩ := search_binds_first_attempt Search.twoNames
    [(Search.nameRuns, ())] _ (by simpa using Search.productive_nameRuns) Search.distinct_nameRuns
  obtain ⟨⟨payload, start, stop, bindings⟩, hm, rfl, rfl⟩ := Search.exists_match_nameRuns hsearch
  refine ⟨found, hsearch, ⟨_, hm, rfl, rfl, ?_⟩, by rfl⟩
  obtain ⟨kept, hkept, hbindings, -⟩ := hbinds _ hm
  obtain rfl : payload = 0 := Subsingleton.elim _ _
  replace hkept : (Search.nameRuns.attemptsOn Search.twoNames 0 2).find? (fun s => !s.returned) =
    some kept := hkept
  have hvalue : ((Search.nameRuns.attemptsOn Search.twoNames 0 2).find? (fun s => !s.returned)).map
      (·.bindings Search.twoNames) = some [("run", .many Search.twoNames)] := by rfl
  rw [hkept] at hvalue
  exact hbindings.trans (Option.some.inj hvalue)

end Homoicon
