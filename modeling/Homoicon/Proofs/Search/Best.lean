import Homoicon.Proofs.Search.Order
import Mathlib.Data.List.Induction

/-! The best of the matches that a search reports does not depend on the order of them. -/
namespace Homoicon

namespace Match
variable {α β : Type} {m n k : Match α}

/-- The order of preference: what starts earlier, of that what is longer, and of that what is of an
earlier pattern. -/
def PreferredTo [LT α] (m n : Match α) : Prop :=
  m.start < n.start ∨
    m.start = n.start ∧ (n.stop < m.stop ∨ m.stop = n.stop ∧ m.payload < n.payload)

theorem better_iff :
    m.better n = true ↔ m.start < n.start ∨ m.start = n.start ∧ n.stop < m.stop := by
  simp [better]

theorem better_trans (hmn : m.better n = true) (hnk : n.better k = true) : m.better k = true := by
  rw [better_iff] at *
  omega

theorem better_of_not_better (hmn : m.better n = true) (hkn : ¬k.better n = true) :
    m.better k = true := by
  rw [better_iff] at *
  omega

def relabel (f : α → β) (m : Match α) : Match β := { m with payload := f m.payload }

theorem better_relabel (f : α → β) : (m.relabel f).better (n.relabel f) = m.better n := rfl

theorem PreferredTo.of_better [LT α] (h : m.better n = true) : m.PreferredTo n :=
  (better_iff.mp h).imp_right fun ⟨hstart, hstop⟩ => ⟨hstart, .inl hstop⟩

/-- Of two matches in the order of a search, the earlier is preferred unless the later is better. -/
theorem Precedes.preferredTo [LT α] (h : m.Precedes n) (hbetter : ¬n.better m = true) :
    m.PreferredTo n := by
  rw [better_iff] at hbetter
  unfold Precedes at h
  unfold PreferredTo
  rcases h with hstop | ⟨hstop, hstart | ⟨hstart, hpayload⟩⟩
  · exact .inl (by omega)
  · exact .inl hstart
  · exact .inr ⟨hstart, .inr ⟨hstop, hpayload⟩⟩

theorem PreferredTo.asymm {count : Nat} {m n : Match (Fin count)} (h : m.PreferredTo n) :
    ¬n.PreferredTo m := by
  unfold PreferredTo at *
  omega

end Match

section Best
variable {α β : Type}

theorem bestMatch_eq_none_iff {found : List (Match α)} : bestMatch found = none ↔ found = [] := by
  cases found <;> simp [bestMatch]

/-- What comes with the matches has no say in which of them is the best. -/
theorem bestMatch_relabel (f : α → β) (found : List (Match α)) :
    bestMatch (found.map (Match.relabel f)) = (bestMatch found).map (Match.relabel f) := by
  cases found with
  | nil => rfl
  | cons m rest =>
    rw [List.map_cons, bestMatch, bestMatch, List.foldl_map, Option.map_some]
    refine congrArg some (List.foldl_hom (Match.relabel f) fun best m => ?_)
    rw [Match.better_relabel]
    split <;> rfl

/-- The best match is better than all before it, and none after it is better. -/
theorem exists_bestMatch {found : List (Match α)} {best : Match α}
    (h : bestMatch found = some best) :
    ∃ front back, found = front ++ best :: back ∧ (∀ m ∈ front, best.better m = true) ∧
      ∀ m ∈ back, ¬m.better best = true := by
  obtain _ | ⟨first, rest⟩ := found
  · cases h
  obtain rfl := Option.some.inj h
  clear h
  -- the matches are compared one by one, so the induction is on the latest of them
  induction rest using List.reverseRecOn with
  | nil => exact ⟨[], [], rfl, List.forall_mem_nil _, List.forall_mem_nil _⟩
  | append_singleton rest last ih =>
    obtain ⟨front, back, hfound, hfront, hback⟩ := ih
    rw [List.foldl_append, List.foldl_cons, List.foldl_nil]
    generalize rest.foldl _ first = best at hfound hfront hback ⊢
    split
    · next hlast =>
      refine ⟨first :: rest, [], rfl, ?_, List.forall_mem_nil _⟩
      rw [hfound, List.forall_mem_append, List.forall_mem_cons]
      exact ⟨fun m hm => Match.better_trans hlast (hfront m hm), hlast,
        fun m hm => Match.better_of_not_better hlast (hback m hm)⟩
    · next hlast =>
      refine ⟨front, back ++ [last], ?_, hfront, ?_⟩
      · rw [← List.cons_append, hfound, List.append_assoc, List.cons_append]
      · exact List.forall_mem_append.mpr ⟨hback, List.forall_mem_singleton.mpr hlast⟩

/-- Of matches in the order of a search, the best one is preferred to all others. -/
theorem bestMatch_eq_some_iff {count : Nat} {found : List (Match (Fin count))}
    (hsorted : found.Pairwise Match.Precedes) {best : Match (Fin count)} :
    bestMatch found = some best ↔
      ∃ others, found.Perm (best :: others) ∧ ∀ m ∈ others, best.PreferredTo m := by
  have hbest : ∀ {best}, bestMatch found = some best →
      ∃ others, found.Perm (best :: others) ∧ ∀ m ∈ others, best.PreferredTo m := by
    intro best h
    obtain ⟨front, back, rfl, hfront, hback⟩ := exists_bestMatch h
    refine ⟨front ++ back, List.perm_middle, List.forall_mem_append.mpr ⟨?_, ?_⟩⟩
    · exact fun m hm => .of_better (hfront m hm)
    · have hlater := (List.pairwise_append.mp hsorted).2.1
      exact fun m hm => (List.rel_of_pairwise_cons hlater hm).preferredTo (hback m hm)
  refine ⟨hbest, fun ⟨others, hperm, hothers⟩ => ?_⟩
  cases hfirst : bestMatch found with
  | none =>
    rw [bestMatch_eq_none_iff.mp hfirst] at hperm
    cases List.nil_perm.mp hperm
  | some first =>
    -- of two matches that are preferred to all others, each would be preferred to the other
    obtain ⟨rest, hperm', hrest⟩ := hbest hfirst
    have hmem : first ∈ best :: others := hperm.subset (hperm'.symm.subset (.head _))
    have hmem' : best ∈ first :: rest := hperm'.subset (hperm.symm.subset (.head _))
    rcases List.mem_cons.mp hmem with rfl | hmem
    · rfl
    · rcases List.mem_cons.mp hmem' with rfl | hmem'
      · rfl
      · exact absurd (hrest best hmem') (hothers first hmem).asymm

end Best

/-- The best of the matches that a search for built patterns reports is missing only if there are
none. Else it is the one that is preferred to all others: none starts earlier, none that starts with
it is longer, and none of the same nodes is of an earlier pattern. In which order they are reported
has no say in this. -/
theorem bestMatch_search {α : Type} (source : List Node) (patterns : List (Blueprint × α))
    (marks : Nat → Nat → UInt64) :
    ∃ found : List (Match (Fin patterns.length)),
      Search.run none source (Search.rootFrames marks (patterns.map fun p => p.1.node)) 0 []
        source = .ok (found.map (Match.relabel Fin.val)) ∧
      ∃ results : List (Match α),
        search none source (patterns.map fun p => (p.1.node, p.2)) marks = .ok results ∧
        results = found.map (Match.relabel fun i => (patterns.get i).2) ∧
        (bestMatch results = none ↔ results = []) ∧
        ∀ best, bestMatch results = some best ↔ ∃ m others,
          best = m.relabel (fun i => (patterns.get i).2) ∧
          found.Perm (m :: others) ∧ ∀ n ∈ others, m.PreferredTo n := by
  obtain ⟨found, hrun, hsearch⟩ := Search.exists_found source patterns marks
  have hroots := Search.rooted_blueprints patterns marks
  obtain ⟨hsorted, -⟩ := Search.run_ordered hroots (Search.alive_nil _) hrun
  rw [List.pairwise_map] at hsorted
  refine ⟨found, hrun, _, hsearch, rfl, bestMatch_eq_none_iff, fun best => ?_⟩
  change bestMatch (found.map (Match.relabel fun i => (patterns.get i).2)) = some best ↔ _
  rw [bestMatch_relabel, Option.map_eq_some_iff]
  constructor
  · rintro ⟨m, hm, rfl⟩
    obtain ⟨others, hperm, hothers⟩ := (bestMatch_eq_some_iff hsorted).mp hm
    exact ⟨m, others, rfl, hperm, hothers⟩
  · rintro ⟨m, others, rfl, hperm, hothers⟩
    exact ⟨m, (bestMatch_eq_some_iff hsorted).mpr ⟨others, hperm, hothers⟩, rfl⟩

end Homoicon
