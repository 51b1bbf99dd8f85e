import Homoicon.Proofs.Pattern.Attempts
import Homoicon.Proofs.Pattern.Productive

/-! Attempts cover the spans that their patterns derive. -/
namespace Homoicon
namespace Blueprint
open Relation (TransGen)

variable {source : List Node} {place : List Nat}

theorem Productive.parts {b : Blueprint} (h : b.Productive) : ProductiveAll b.parts := by
  cases b with
  | sequence items => exact h
  | _ => exact ⟨h, trivial⟩

mutual

/-- A pattern goes forward, and not past the end of the source. -/
theorem derives_bounds (b : Blueprint) {i j : Nat} (h : b.Derives source i j)
    (hi : i ≤ source.length) : i ≤ j ∧ j ≤ source.length := by
  cases b with
  | sequence items => exact derivesAll_bounds items h hi
  | alternatives items => exact derivesAny_bounds items h hi
  | optional items greedy =>
    rcases h with rfl | h
    · exact ⟨Nat.le_refl _, hi⟩
    · exact derivesAll_bounds items h hi
  | repeated items greedy =>
    replace h : TransGen (DerivesAll source items) i j := h
    induction h with
    | single h => exact derivesAll_bounds items h hi
    | tail _ h ih =>
      have hround := derivesAll_bounds items h ih.2
      exact ⟨Nat.le_trans ih.1 hround.1, hround.2⟩
  | anchor start =>
    obtain ⟨rfl, -⟩ := h
    exact ⟨Nat.le_refl _, hi⟩
  | matchType kind =>
    obtain ⟨rfl, node, hnode, -⟩ := h
    exact ⟨Nat.le_succ _, (List.getElem?_eq_some_iff.mp hnode).1⟩
  | matchValue target =>
    obtain ⟨rfl, node, hnode, -⟩ := h
    exact ⟨Nat.le_succ _, (List.getElem?_eq_some_iff.mp hnode).1⟩
  | capture name inner => exact derives_bounds inner h hi

theorem derivesAll_bounds (bs : List Blueprint) {i j : Nat} (h : DerivesAll source bs i j)
    (hi : i ≤ source.length) : i ≤ j ∧ j ≤ source.length := by
  cases bs with
  | nil =>
    obtain rfl : i = j := h
    exact ⟨Nat.le_refl _, hi⟩
  | cons b bs =>
    obtain ⟨m, hb, hbs⟩ := h
    have hfirst := derives_bounds b hb hi
    have hlater := derivesAll_bounds bs hbs hfirst.2
    exact ⟨Nat.le_trans hfirst.1 hlater.1, hlater.2⟩

theorem derivesAny_bounds (bs : List Blueprint) {i j : Nat} (h : DerivesAny source bs i j)
    (hi : i ≤ source.length) : i ≤ j ∧ j ≤ source.length := by
  cases bs with
  | nil => exact h.elim
  | cons b bs =>
    rcases h with h | h
    · exact derives_bounds b h hi
    · exact derivesAny_bounds bs h hi

end

theorem transGen_of_mem_rounds {round : Attempt → List Attempt} {greedy : Bool} {n : Nat}
    {s s' : Attempt} {R : Nat → Nat → Prop} (hround : ∀ s, ∀ s' ∈ round s, R s.offset s'.offset)
    (h : s' ∈ rounds round greedy place n s) : TransGen R s.offset s'.offset := by
  induction n generalizing s with
  | zero => cases h
  | succ n ih =>
    obtain ⟨m, hm, h⟩ := List.mem_flatMap.mp h
    have hfirst := hround s m hm
    cases greedy with
    | true =>
      rcases List.mem_append.mp h with h | h
      · exact .head hfirst (ih h)
      · rw [List.mem_singleton.mp h]
        exact .single hfirst
    | false =>
      rcases List.mem_cons.mp h with rfl | h
      · exact .single hfirst
      · exact .head hfirst (ih h)

mutual

theorem derives_of_mem_attempts (b : Blueprint) {place : List Nat} {s s' : Attempt}
    (h : s' ∈ b.attempts source place s) : b.Derives source s.offset s'.offset := by
  cases b with
  | sequence items => exact derivesAll_of_mem_attempts items h
  | alternatives items => exact derivesAny_of_mem_attempts items h
  | optional items greedy =>
    cases greedy with
    | true =>
      rcases List.mem_append.mp h with h | h
      · exact .inr (derivesAll_of_mem_attempts items h)
      · exact .inl (congrArg (fun a : Attempt => a.offset) (List.mem_singleton.mp h)).symm
    | false =>
      rcases List.mem_cons.mp h with rfl | h
      · exact .inl rfl
      · exact .inr (derivesAll_of_mem_attempts items h)
  | repeated items greedy =>
    have hround : ∀ m, ∀ m' ∈ attemptsAll source items place 0 m,
        DerivesAll source items m.offset m'.offset := fun m m' h =>
      derivesAll_of_mem_attempts items h
    exact transGen_of_mem_rounds (s := s.entered place) hround h
  | anchor start =>
    obtain ⟨hs, h⟩ := List.mem_ite_nil_right.mp h
    rw [List.mem_singleton.mp h]
    exact ⟨rfl, hs⟩
  | matchType kind =>
    simp only [attempts] at h
    split at h
    · next node hnode =>
      obtain ⟨hkind, h⟩ := List.mem_ite_nil_right.mp h
      rw [List.mem_singleton.mp h]
      exact ⟨rfl, node, hnode, hkind⟩
    · cases h
  | matchValue target =>
    simp only [attempts] at h
    split at h
    · next node hnode =>
      obtain ⟨⟨hkind, hsome, hhash⟩, h⟩ := List.mem_ite_nil_right.mp h
      obtain ⟨word, hword⟩ := Option.isSome_iff_exists.mp hsome
      rw [List.mem_singleton.mp h]
      exact ⟨rfl, node, hnode, hkind, word, hword, hhash ▸ hword⟩
    · cases h
  | capture name inner =>
    obtain ⟨m, hm, rfl⟩ := List.mem_map.mp h
    have hinner := derives_of_mem_attempts inner hm
    exact hinner

theorem derivesAll_of_mem_attempts (bs : List Blueprint) {place : List Nat} {k : Nat}
    {s s' : Attempt} (h : s' ∈ attemptsAll source bs place k s) :
    DerivesAll source bs s.offset s'.offset := by
  cases bs with
  | nil => exact (congrArg (fun a : Attempt => a.offset) (List.mem_singleton.mp h)).symm
  | cons b bs =>
    obtain ⟨m, hm, h⟩ := List.mem_flatMap.mp h
    exact ⟨m.offset, derives_of_mem_attempts b hm, derivesAll_of_mem_attempts bs h⟩

theorem derivesAny_of_mem_attempts (bs : List Blueprint) {place : List Nat} {k : Nat}
    {s s' : Attempt} (h : s' ∈ attemptsAny source bs place k s) :
    DerivesAny source bs s.offset s'.offset := by
  cases bs with
  | nil => cases h
  | cons b bs =>
    rcases List.mem_append.mp h with h | h
    · exact .inl (derives_of_mem_attempts b h)
    · exact .inr (derivesAny_of_mem_attempts bs h)

end

/-- A round that is not for nothing takes a node of those that are left. -/
theorem offset_lt_of_mem_round {items : List Blueprint} {k : Nat} {s s' : Attempt}
    (hitems : ∀ source i, ¬DerivesAll source items i i) (hs : s.offset ≤ source.length)
    (h : s' ∈ attemptsAll source items place k s) :
    s.offset < s'.offset ∧ s'.offset ≤ source.length := by
  have hderives := derivesAll_of_mem_attempts items h
  have hbounds := derivesAll_bounds items hderives hs
  have hne : s.offset ≠ s'.offset := fun heq => hitems source s.offset (heq ▸ hderives)
  omega

end Blueprint
end Homoicon
