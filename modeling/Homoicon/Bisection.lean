/-! Where a list is divided, found by halving it. -/
namespace Homoicon.Bisection

variable {α : Type}

/-- Halves the `size` items from `base` on until one is left. -/
def narrow (before : α → Bool) (items : List α) (base size : Nat) : Nat :=
  if size ≤ 1 then base
  else
    let half := size / 2
    narrow before items (if items[base + half]?.any before then base + half else base) (size - half)
termination_by size
decreasing_by omega

/-- The number of items that come before, when no other item stands among them. -/
def point (before : α → Bool) (items : List α) : Nat :=
  let base := narrow before items 0 items.length
  match items[base]? with
  | some item => if before item then base + 1 else base
  | none => 0

/-! ### The point at which a list is divided -/

theorem insertIdx_append (front back : List α) (item : α) :
    (front ++ back).insertIdx front.length item = front ++ item :: back := by
  induction front with
  | nil => rfl
  | cons first front ih => simp [ih]

variable {before : α → Bool} {items front back : List α} {count : Nat}

section Count
variable (hcount : ∀ i (hi : i < items.length), before items[i] = true ↔ i < count)
include hcount

/-- Halving keeps the number of items that come before within reach: the base is the start or one of
them, and the first of the others is at most one past the items that are left. -/
theorem narrow_reaches {base size : Nat} (hbase : base = 0 ∨ base < count)
    (hreach : count ≤ base + size) (hpos : 0 < size) (hend : base + size ≤ items.length) :
    narrow before items base size < items.length ∧
      (narrow before items base size = 0 ∨ narrow before items base size < count) ∧
      count ≤ narrow before items base size + 1 := by
  induction size using Nat.strongRecOn generalizing base with
  | _ size ih =>
    unfold narrow
    split
    · exact ⟨by omega, hbase, by omega⟩
    · have hmiddle : base + size / 2 < items.length := by omega
      have hhalf := hcount _ hmiddle
      simp only [List.getElem?_eq_getElem hmiddle, Option.any_some]
      split
      · next hbefore =>
        exact ih _ (by omega) (.inr (hhalf.mp hbefore)) (by omega) (by omega) (by omega)
      · next hbefore =>
        have hless : count ≤ base + size / 2 := Nat.le_of_not_lt (mt hhalf.mpr hbefore)
        exact ih _ (by omega) hbase (by omega) (by omega) (by omega)

theorem point_eq_count (hlength : count ≤ items.length) : point before items = count := by
  unfold point
  dsimp only
  rcases Nat.eq_zero_or_pos items.length with hempty | hpos
  · obtain rfl := List.length_eq_zero_iff.mp hempty
    exact (Nat.le_zero.mp hlength).symm
  · obtain ⟨hlt, hbase, hreach⟩ :=
      narrow_reaches hcount (.inl rfl) (by omega) hpos (Nat.le_of_eq (Nat.zero_add _))
    have hbefore := hcount _ hlt
    rw [List.getElem?_eq_getElem hlt]
    dsimp only
    split
    · next h =>
      have := hbefore.mp h
      omega
    · next h =>
      have := mt hbefore.mpr h
      omega

end Count

theorem point_append (hfront : ∀ item ∈ front, before item = true)
    (hback : ∀ item ∈ back, before item = false) : point before (front ++ back) = front.length := by
  refine point_eq_count (fun i hi => ?_) (by simp)
  rw [List.getElem_append]
  split
  · next h => exact iff_of_true (hfront _ (List.getElem_mem h)) h
  · next h => exact iff_of_false (Bool.eq_false_iff.mp (hback _ (List.getElem_mem _))) h

/-- A list in which no item that comes before follows another one is divided by the point. -/
theorem exists_point (before : α → Bool)
    (hordered : items.Pairwise fun a b => before b = true → before a = true) :
    ∃ front back, items = front ++ back ∧ point before items = front.length ∧
      (∀ item ∈ front, before item = true) ∧ ∀ item ∈ back, before item = false := by
  have hdivided : ∃ front back, items = front ++ back ∧
      (∀ item ∈ front, before item = true) ∧ ∀ item ∈ back, before item = false := by
    induction items with
    | nil => exact ⟨[], [], rfl, List.forall_mem_nil _, List.forall_mem_nil _⟩
    | cons item items ih =>
      obtain ⟨hlater, hordered⟩ := List.pairwise_cons.mp hordered
      cases hitem : before item with
      | true =>
        obtain ⟨front, back, rfl, hfront, hback⟩ := ih hordered
        exact ⟨item :: front, back, rfl, List.forall_mem_cons.mpr ⟨hitem, hfront⟩, hback⟩
      | false =>
        refine ⟨[], item :: items, rfl, List.forall_mem_nil _,
          List.forall_mem_cons.mpr ⟨hitem, fun later h => Bool.eq_false_iff.mpr fun hbefore => ?_⟩⟩
        rw [hlater later h hbefore] at hitem
        cases hitem
  obtain ⟨front, back, rfl, hfront, hback⟩ := hdivided
  exact ⟨front, back, rfl, point_append hfront hback, hfront, hback⟩

end Homoicon.Bisection
