import Homoicon.Proofs.Pattern.Takes

/-! Patterns whose optional and repeated parts take at least one node. -/
namespace Homoicon

namespace Pattern

mutual

/-- Whether a pattern may be passed without a node. -/
def nullable : Pattern → Bool
  | group _ shape items =>
    match shape with
    | .optional _ => true
    | .choice => nullableAny items
    | _ => nullableAll items
  | anchor _ => true
  | .test _ => false
  | faulty _ => false

def nullableAll : List Pattern → Bool
  | [] => true
  | item :: items => nullable item && nullableAll items

def nullableAny : List Pattern → Bool
  | [] => false
  | item :: items => nullable item || nullableAny items

end

mutual

/-- No optional or repeated part of a pattern may be passed without a node. -/
def Productive : Pattern → Prop
  | group _ shape items =>
    (match shape with
      | .optional _ | .repetition _ => nullableAll items = false
      | _ => True) ∧ ProductiveAll items
  | anchor _ => True
  | .test _ => True
  | faulty _ => True

def ProductiveAll : List Pattern → Prop
  | [] => True
  | item :: items => Productive item ∧ ProductiveAll items

end

mutual

/-- A bound on the moves that a pattern allows without a node: into each group, out of it and once
around it. -/
def weight : Pattern → Nat
  | group _ _ items => 2 * weightAll items + 2
  | anchor _ => 1
  | .test _ => 1
  | faulty _ => 1

def weightAll : List Pattern → Nat
  | [] => 0
  | item :: items => weight item + weightAll items

end

theorem productiveAll_iff {items : List Pattern} :
    ProductiveAll items ↔ ∀ item ∈ items, item.Productive := by
  induction items with
  | nil => simp [ProductiveAll]
  | cons item items ih => simp [ProductiveAll, ih]

theorem nullableAny_of_mem {item : Pattern} {items : List Pattern} (h : item ∈ items)
    (hitem : item.nullable = true) : nullableAny items = true := by
  induction h with
  | head => simp [nullableAny, hitem]
  | tail _ _ ih => simp [nullableAny, ih]

theorem weight_pos (p : Pattern) : 0 < p.weight := by
  cases p <;> simp [weight]

theorem weightAll_drop_le (items : List Pattern) (k : Nat) :
    weightAll (items.drop k) ≤ weightAll items := by
  induction items generalizing k with
  | nil => simp
  | cons item items ih =>
    cases k with
    | zero => simp
    | succ k =>
      have hle := ih k
      simp only [List.drop_succ_cons, weightAll]
      omega

end Pattern

namespace Blueprint
open Pattern (ofNode ofNodes)

variable {marks : Nat → UInt64}

mutual

/-- No optional or repeated part of a pattern matches no nodes at all, in any source. -/
def Productive : Blueprint → Prop
  | sequence items => ProductiveAll items
  | alternatives items => ProductiveAll items
  | optional items _ => (∀ source i, ¬DerivesAll source items i i) ∧ ProductiveAll items
  | repeated items _ => (∀ source i, ¬DerivesAll source items i i) ∧ ProductiveAll items
  | anchor _ => True
  | matchType _ => True
  | matchValue _ => True
  | capture _ inner => Productive inner

def ProductiveAll : List Blueprint → Prop
  | [] => True
  | item :: items => Productive item ∧ ProductiveAll items

end

mutual

theorem derives_of_nullable (b : Blueprint) (serial : Nat)
    (h : (ofNode marks serial b.node).nullable = true) : b.Derives [] 0 0 := by
  cases b with
  | sequence items => exact derivesAll_of_nullable items _ h
  | alternatives items => exact derivesAny_of_nullable items _ h
  | optional items greedy => exact .inl rfl
  | repeated items greedy =>
    rw [ofNode_repeated] at h
    exact .single (derivesAll_of_nullable items _ h)
  | anchor start => exact ⟨rfl, by simp⟩
  | matchType kind =>
    rw [ofNode_matchType] at h
    cases h
  | matchValue target => cases h
  | capture name inner =>
    rw [ofNode_capture] at h
    simp only [Pattern.nullable, Pattern.nullableAll, Bool.and_true] at h
    have hinner := derives_of_nullable inner _ h
    exact hinner

theorem derivesAll_of_nullable (bs : List Blueprint) (serial : Nat)
    (h : Pattern.nullableAll (ofNodes marks serial (nodes bs)) = true) : DerivesAll [] bs 0 0 := by
  cases bs with
  | nil => exact rfl
  | cons b bs =>
    obtain ⟨hb, hbs⟩ := (Bool.and_eq_true _ _).mp h
    exact ⟨0, derives_of_nullable b _ hb, derivesAll_of_nullable bs _ hbs⟩

theorem derivesAny_of_nullable (bs : List Blueprint) (serial : Nat)
    (h : Pattern.nullableAny (ofNodes marks serial (nodes bs)) = true) : DerivesAny [] bs 0 0 := by
  cases bs with
  | nil => cases h
  | cons b bs =>
    rcases (Bool.or_eq_true _ _).mp h with h | h
    · exact .inl (derives_of_nullable b _ h)
    · exact .inr (derivesAny_of_nullable bs _ h)

end

theorem not_nullable {items : List Blueprint} (h : ∀ source i, ¬DerivesAll source items i i)
    (serial : Nat) : Pattern.nullableAll (ofNodes marks serial (nodes items)) = false :=
  Bool.eq_false_iff.mpr fun hnull => h [] 0 (derivesAll_of_nullable items serial hnull)

mutual

theorem productive_ofNode (b : Blueprint) (serial : Nat) (h : b.Productive) :
    (ofNode marks serial b.node).Productive := by
  cases b with
  | sequence items => exact ⟨trivial, productiveAll_ofNodes items _ h⟩
  | alternatives items => exact ⟨trivial, productiveAll_ofNodes items _ h⟩
  | optional items greedy => exact ⟨not_nullable h.1 _, productiveAll_ofNodes items _ h.2⟩
  | repeated items greedy =>
    rw [ofNode_repeated]
    exact ⟨not_nullable h.1 _, productiveAll_ofNodes items _ h.2⟩
  | anchor start => exact trivial
  | matchType kind => exact trivial
  | matchValue target => exact trivial
  | capture name inner =>
    rw [ofNode_capture]
    exact ⟨trivial, productive_ofNode inner _ h, trivial⟩

theorem productiveAll_ofNodes (bs : List Blueprint) (serial : Nat) (h : ProductiveAll bs) :
    Pattern.ProductiveAll (ofNodes marks serial (nodes bs)) := by
  cases bs with
  | nil => exact trivial
  | cons b bs => exact ⟨productive_ofNode b _ h.1, productiveAll_ofNodes bs _ h.2⟩

end

end Blueprint
end Homoicon
