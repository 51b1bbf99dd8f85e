import Homoicon.Proofs.Search.Occupancy

/-! A budget cuts a search short or leaves it as it is. -/
namespace Homoicon
namespace Search
variable {source : List Node} {roots : List Frame} {limit wider i j k : Nat} {live : List Thread}

/-- After no node from one offset up to another are more threads alive than a limit. -/
def Within (source : List Node) (roots : List Frame) (limit i j : Nat) : Prop :=
  ∀ offset after, i ≤ offset → offset < j → liveAt source roots (offset + 1) = .ok after →
    after.length ≤ limit

/-- The threads that are alive after the node at `offset` are the first, from the offset `i` on, to
be more than a limit. -/
structure Cut (source : List Node) (roots : List Frame) (limit i offset : Nat)
    (after : List Thread) : Prop where
  from_le : i ≤ offset
  inside : offset < source.length
  before : Within source roots limit i offset
  alive : liveAt source roots (offset + 1) = .ok after
  beyond : limit < after.length

theorem within_of_le (h : j ≤ i) : Within source roots limit i j := by
  intro offset after hi hj
  omega

theorem Within.cons {after : List Thread} (hafter : liveAt source roots (i + 1) = .ok after)
    (hlimit : after.length ≤ limit) (h : Within source roots limit (i + 1) j) :
    Within source roots limit i j := by
  intro offset other hi hj hother
  rcases Nat.eq_or_lt_of_le hi with rfl | hi
  · have heq : after = other := Except.ok.inj (hafter.symm.trans hother)
    rwa [← heq]
  · exact h offset other hi hj hother

theorem Cut.cons {offset : Nat} {after last : List Thread}
    (hafter : liveAt source roots (i + 1) = .ok after) (hlimit : after.length ≤ limit)
    (h : Cut source roots limit (i + 1) offset last) : Cut source roots limit i offset last where
  from_le := Nat.le_of_succ_le h.from_le
  inside := h.inside
  before := h.before.cons hafter hlimit
  alive := h.alive
  beyond := h.beyond

/-- A wider limit is met no earlier. -/
theorem Cut.le_of_le {offset offset' : Nat} {after after' : List Thread} (hle : limit ≤ wider)
    (h : Cut source roots limit i offset after) (h' : Cut source roots wider i offset' after') :
    offset ≤ offset' := by
  by_contra hlt
  have hlength : after'.length ≤ limit :=
    h.before offset' after' h'.from_le (Nat.lt_of_not_le hlt) h'.alive
  have hbeyond : wider < after'.length := h'.beyond
  omega

theorem Cut.length_le {offset : Nat} {after : List Thread}
    (h : Cut source roots limit i offset after)
    (hwithin : Within source roots wider i source.length) : after.length ≤ wider :=
  hwithin offset after h.from_le h.inside h.alive

/-- A run without a budget comes to its end, and one with a budget comes to the same end, or stops
where its limit is met for the first time. -/
theorem run_cut (hroots : Rooted roots) (limit : Nat) (rest : List Node)
    (hrest : source.drop i = rest) (hlive : Alive roots i live)
    (hat : liveAt source roots i = .ok live) :
    ∃ results, run none source roots i live rest = .ok results ∧
      (Within source roots limit i source.length ∧
          run (some limit) source roots i live rest = .ok results ∨
        ∃ offset after, Cut source roots limit i offset after ∧
          run (some limit) source roots i live rest =
            .error (.budgetExceeded offset after.length)) := by
  induction rest generalizing i live with
  | nil =>
    obtain ⟨settled, hsettled⟩ := exists_settled hroots hlive.placed true
    have hrun : ∀ budget, run budget source roots i live [] =
        .ok (settled.matched.map (found source i)) := fun budget => by
      rw [run, hsettled]
      rfl
    have hend : source.length ≤ i := List.drop_eq_nil_iff.mp hrest
    exact ⟨_, hrun none, .inl ⟨within_of_le hend, hrun (some limit)⟩⟩
  | cons input rest ih =>
    have hinput : source[i]? = some input := getElem?_of_drop_eq_cons hrest
    obtain ⟨step, hstep, -⟩ := advance_ok hroots hlive.placed input
    obtain ⟨-, hnext⟩ := advance_ordered hroots hlive hstep
    have hafter : liveAt source roots (i + 1) = .ok step.live := liveAt_succ hinput hat hstep
    obtain ⟨later, hlater, hcut⟩ := ih (drop_succ_of_drop_eq_cons hrest) hnext hafter
    rw [run_cons_of_advance rest hstep, run_cons_of_advance rest hstep, hlater]
    refine ⟨step.matched.map (found source i) ++ later, by simp [exceeds, ok_bind], ?_⟩
    by_cases hlimit : limit < step.live.length
    · -- the limit is met here
      have hexceeds : exceeds (some limit) step.live.length = true := by simpa [exceeds]
      have hi : i < source.length := (List.getElem?_eq_some_iff.mp hinput).1
      have hhere : Cut source roots limit i i step.live :=
        ⟨Nat.le_refl i, hi, within_of_le (Nat.le_refl i), hafter, hlimit⟩
      rw [if_pos hexceeds]
      exact .inr ⟨i, step.live, hhere, rfl⟩
    · have hexceeds : ¬exceeds (some limit) step.live.length = true := by
        simpa [exceeds] using hlimit
      have hle : step.live.length ≤ limit := Nat.le_of_not_lt hlimit
      rw [if_neg hexceeds]
      rcases hcut with ⟨hwithin, hrun⟩ | ⟨offset, after, hcut, hrun⟩
      · exact .inl ⟨hwithin.cons hafter hle, by rw [hrun, ok_bind]⟩
      · exact .inr ⟨offset, after, hcut.cons hafter hle, by rw [hrun]; rfl⟩

end Search

theorem search_cut {α : Type} (source : List Node) (patterns : List (Blueprint × α))
    (marks : Nat → Nat → UInt64) (limit : Nat) :
    let roots := Search.rootFrames marks (patterns.map fun p => p.1.node)
    ∃ results, search none source (patterns.map fun p => (p.1.node, p.2)) marks = .ok results ∧
      (Search.Within source roots limit 0 source.length ∧
          search (some limit) source (patterns.map fun p => (p.1.node, p.2)) marks = .ok results ∨
        ∃ offset after, Search.Cut source roots limit 0 offset after ∧
          search (some limit) source (patterns.map fun p => (p.1.node, p.2)) marks =
            .error (.budgetExceeded offset after.length)) := by
  intro roots
  have hroots := Search.rooted_blueprints patterns marks
  obtain ⟨results, hrun, hcut⟩ := Search.run_cut hroots limit source (i := 0) rfl
    (Search.alive_nil roots) rfl
  have hsearch : ∀ {budget}, Search.run budget source roots 0 [] source = .ok results →
      search budget source (patterns.map fun p => (p.1.node, p.2)) marks =
        .ok (results.filterMap fun m =>
          (patterns.map fun p => (p.1.node, p.2))[m.payload]?.map fun p =>
            { m with payload := p.2 }) := by
    intro budget hrun
    rw [search, List.map_map]
    exact congrArg (· >>= _) hrun
  refine ⟨_, hsearch hrun, ?_⟩
  rcases hcut with ⟨hwithin, hrun⟩ | ⟨offset, after, hcut, hrun⟩
  · exact .inl ⟨hwithin, hsearch hrun⟩
  · exact .inr ⟨offset, after, hcut, search_of_run_error hrun⟩

namespace Search

theorem rooted_nameRuns : Rooted (rootFrames serialMarks [nameRuns.node]) :=
  rooted_blueprints [(nameRuns, ())] serialMarks

/-- After both names, the two attempts at runs of them are alive. -/
theorem length_liveAt_nameRuns {live : List Thread}
    (h : liveAt twoNames (rootFrames serialMarks [nameRuns.node]) 2 = .ok live) :
    live.length = 2 := by
  have hle : live.length ≤ 2 := length_liveAt_le rooted_nameRuns (Nat.lt_succ_self 1) h
  have hderives : ∀ start < 2, nameRuns.Derives twoNames start 2 := by
    intro start hstart
    match start, hstart with
    | 0, _ => exact derives_nameRuns
    | 1, _ => exact .single ⟨2, .single ⟨2, ⟨rfl, _, rfl, rfl⟩, rfl⟩, rfl⟩
  have hroot : (rootFrames serialMarks [nameRuns.node])[0]? =
      some (rootFrame (serialMarks 0) nameRuns.node) := rfl
  have hge : [(0, 0), (1, 0)].length ≤ live.length := by
    refine length_le_length_liveAt distinct_nameRuns h (by decide) fun a ha => ?_
    have ha : a.1 < 2 ∧ a.2 = 0 := by
      revert a
      decide
    obtain ⟨records, htakes⟩ := nameRuns.exists_takesAll_rootFrame_iff.mpr (hderives a.1 ha.1)
    obtain ⟨t, ht, -, hstart, hpattern, -⟩ :=
      (reached_done_iff rooted_nameRuns).mpr ⟨ha.1, _, hroot, htakes⟩
    exact ⟨ha.1, 2, t, Nat.le_refl 2, ht, hstart, hpattern.trans ha.2.symm⟩
  exact Nat.le_antisymm hle hge

/-- A limit of one thread is met by the second attempt, and one of two threads never is. -/
theorem cut_nameRuns {limit offset : Nat} {after : List Thread} (hlimit : 1 ≤ limit)
    (h : Cut twoNames (rootFrames serialMarks [nameRuns.node]) limit 0 offset after) :
    limit = 1 ∧ offset = 1 ∧ after.length = 2 := by
  have hbeyond : limit < after.length := h.beyond
  match offset, h.inside, h.alive with
  | 0, hi, halive =>
    have hle : after.length ≤ 1 := length_liveAt_le rooted_nameRuns hi halive
    omega
  | 1, _, halive =>
    have hlength := length_liveAt_nameRuns halive
    omega

/-- Of two attempts at runs of names, a budget of one thread is exceeded by the second one. -/
theorem search_nameRuns_one :
    search (some 1) twoNames [(nameRuns.node, ())] = .error (.budgetExceeded 1 2) := by
  obtain ⟨_, _, hone⟩ := search_cut twoNames [(nameRuns, ())] serialMarks 1
  rcases hone with ⟨hwithin, -⟩ | ⟨offset, after, hcut, hfound⟩
  · obtain ⟨live, hlive, -⟩ := exists_liveAt (i := 2) rooted_nameRuns (Nat.le_refl twoNames.length)
    have hlength := length_liveAt_nameRuns hlive
    have hlimit : live.length ≤ 1 := hwithin 1 live (Nat.zero_le 1) (Nat.lt_succ_self 1) hlive
    omega
  · obtain ⟨-, rfl, hlength⟩ := cut_nameRuns (Nat.le_refl 1) hcut
    rwa [hlength] at hfound

theorem search_nameRuns_two_ne_error {offset states : Nat} :
    search (some 2) twoNames [(nameRuns.node, ())] ≠ .error (.budgetExceeded offset states) := by
  intro hstop
  obtain ⟨_, _, htwo⟩ := search_cut twoNames [(nameRuns, ())] serialMarks 2
  rcases htwo with ⟨-, hfound⟩ | ⟨_, _, hcut, -⟩
  · cases hstop.symm.trans hfound
  · cases (cut_nameRuns (Nat.le_succ 1) hcut).1

end Search

end Homoicon
