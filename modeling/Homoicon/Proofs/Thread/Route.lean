/-! Routes of a thread, by the numbers of the branches that it takes. -/
namespace Homoicon.Route

/-- Whether two routes part at a fork where the first takes a branch of higher priority. -/
def Before : List Nat → List Nat → Prop
  | a :: r, b :: s => a < b ∨ a = b ∧ Before r s
  | _, _ => False

/-- The order in which a depth-first search comes by the ends of routes. -/
def Le (r s : List Nat) : Prop := r <+: s ∨ Before r s

variable {p r s t : List Nat} {a b c k l : Nat}

theorem before_cons : Before (a :: r) (b :: s) ↔ a < b ∨ a = b ∧ Before r s := Iff.rfl

theorem before_append_left : Before (p ++ r) (p ++ s) ↔ Before r s := by
  induction p with
  | nil => rfl
  | cons a p ih => simp [before_cons, ih]

theorem before_snoc (h : k < l) : Before (p ++ [k]) (p ++ [l]) :=
  before_append_left.mpr (.inl h)

theorem Before.append (h : Before r s) (x y : List Nat) : Before (r ++ x) (s ++ y) := by
  fun_induction Before r s with
  | case1 a r b s ih =>
    rcases h with h | ⟨rfl, h⟩
    · exact .inl h
    · exact .inr ⟨rfl, ih h⟩
  | case2 => exact h.elim

theorem Before.irrefl : ¬Before r r := by
  induction r with
  | nil => exact id
  | cons a r ih =>
    rintro (h | ⟨-, h⟩)
    · exact Nat.lt_irrefl a h
    · exact ih h

theorem Before.ne (h : Before r s) : r ≠ s := by
  rintro rfl
  exact h.irrefl

theorem Before.trans (h : Before r s) (h' : Before s t) : Before r t := by
  induction r generalizing s t with
  | nil => exact h.elim
  | cons a r ih =>
    match s, t, h, h' with
    | b :: s, c :: t, h, h' =>
      rcases h with h | ⟨rfl, h⟩
      · rcases h' with h' | ⟨rfl, -⟩
        · exact .inl (Nat.lt_trans h h')
        · exact .inl h
      · rcases h' with h' | ⟨rfl, h'⟩
        · exact .inl h'
        · exact .inr ⟨rfl, ih h h'⟩

theorem Le.refl (r : List Nat) : Le r r := .inl (List.prefix_refl r)

theorem le_cons : Le (a :: r) (a :: s) ↔ Le r s := by
  simp [Le, before_cons]

theorem le_succ : Le ((a + 1) :: r) ((b + 1) :: s) ↔ Le (a :: r) (b :: s) := by
  simp [Le, before_cons]

theorem not_le_of_lt (h : b < a) : ¬Le (a :: r) (b :: s) := by
  rintro (h' | h')
  · obtain ⟨rfl, -⟩ := List.cons_prefix_cons.mp h'
    exact Nat.lt_irrefl _ h
  · rcases h' with h' | ⟨rfl, -⟩ <;> omega

theorem le_snoc : Le (r ++ [k]) (r ++ [l]) ↔ k ≤ l := by
  unfold Le
  rw [before_append_left, List.prefix_append_right_inj, List.cons_prefix_cons, before_cons]
  constructor
  · rintro (⟨rfl, -⟩ | h | ⟨rfl, -⟩) <;> omega
  · intro h
    rcases Nat.eq_or_lt_of_le h with rfl | h
    · exact .inl ⟨rfl, List.prefix_refl _⟩
    · exact .inr (.inl h)

theorem Before.trans_le (h : Before r s) (h' : Le s t) : Before r t := by
  rcases h' with ⟨x, rfl⟩ | h'
  · simpa using h.append [] x
  · exact h.trans h'

/-- What comes no earlier than a route begins as it does or parts with it later. -/
theorem Le.cases_append (h : Le (p ++ r) s) : Before p s ∨ ∃ t, s = p ++ t ∧ Le r t := by
  induction p generalizing s with
  | nil => exact .inr ⟨s, rfl, h⟩
  | cons a p ih =>
    rcases h with ⟨x, rfl⟩ | h
    · exact .inr ⟨r ++ x, by simp, .inl (List.prefix_append r x)⟩
    · cases s with
      | nil => exact h.elim
      | cons b s =>
        rcases h with h | ⟨rfl, h⟩
        · exact .inl (.inl h)
        · rcases ih (.inr h) with h | ⟨t, rfl, ht⟩
          · exact .inl (.inr ⟨rfl, h⟩)
          · exact .inr ⟨t, rfl, ht⟩

theorem Le.trans (h : Le r s) (h' : Le s t) : Le r t := by
  rcases h with ⟨x, rfl⟩ | h
  · rcases h'.cases_append with h' | ⟨y, rfl, -⟩
    · exact .inr h'
    · exact .inl (List.prefix_append r y)
  · exact .inr (h.trans_le h')

theorem not_le_append (h : r ≠ []) : ¬Le (p ++ r) p := by
  intro hle
  rcases hle.cases_append with hbefore | ⟨t, ht, hle⟩
  · exact hbefore.irrefl
  · rw [List.self_eq_append_right.mp ht] at hle
    rcases hle with hprefix | hbefore
    · exact h (List.prefix_nil.mp hprefix)
    · cases r <;> exact hbefore

theorem Le.append (h : Le r s) (x : List Nat) : Le r (s ++ x) :=
  h.trans (.inl (List.prefix_append s x))

/-- What comes no earlier than a way on by the first branch, goes on by it too or comes no earlier
than the second one. -/
theorem Le.cases_zero (h : Le (p ++ 0 :: r) s) : (∃ t, s = p ++ 0 :: t) ∨ Le (p ++ [1]) s := by
  rcases h.cases_append with hbefore | ⟨t, rfl, htail⟩
  · have happend := hbefore.append [1] []
    rw [List.append_nil] at happend
    exact .inr (.inr happend)
  · match t, htail with
    | 0 :: t, _ => exact .inl ⟨t, rfl⟩
    | 1 :: t, _ => exact .inr (.inl ⟨t, by simp⟩)
    | (d + 2) :: t, _ => exact .inr (.inr (before_append_left.mpr (.inl (by omega))))
    | [], htail => exact absurd htail (@not_le_append [] _ (List.cons_ne_nil _ _))

end Homoicon.Route
