import Homoicon.Node
import Homoicon.Proofs.Node.Number

/-! Having the same structure is symmetric and transitive, though a tree may differ from itself. -/
namespace Homoicon

namespace Value
/-- Numbers are compared as numbers, all else is equal only to itself. -/
theorem beq_iff {a b : Value} :
    (a == b) = true ↔
      (∃ x y, a = number x ∧ b = number y ∧ (x == y) = true) ∨ (a = b ∧ ∀ x, a ≠ number x) := by
  cases a <;> cases b <;> simp [BEq.beq, instBEqValue.beq]

instance : PartialEquivBEq Value where
  symm {a b} h := by
    rcases beq_iff.mp h with ⟨x, y, hx, hy, heq⟩ | ⟨rfl, hother⟩
    · exact beq_iff.mpr (.inl ⟨y, x, hy, hx, PartialEquivBEq.symm heq⟩)
    · exact h
  trans {a b c} hab hbc := by
    rcases beq_iff.mp hab with ⟨x, y, hx, hy, hxy⟩ | ⟨rfl, -⟩
    · rcases beq_iff.mp hbc with ⟨y', z, hy', hz, hyz⟩ | ⟨-, hother⟩
      · obtain rfl : y = y' := number.inj (hy.symm.trans hy')
        exact beq_iff.mpr (.inl ⟨x, z, hx, hz, PartialEquivBEq.trans hxy hyz⟩)
      · exact absurd hy (hother y)
    · exact hbc

end Value

namespace Node
variable {a b : Node} {as bs : List Node}

theorem sameStructure_iff :
    a.sameStructure b = true ↔
      a.kind = b.kind ∧ (a.value == b.value) = true ∧
        sameStructures a.children b.children = true := by
  cases a
  simp [sameStructure, and_assoc]

theorem sameStructures_nil : sameStructures [] bs = true ↔ bs = [] := by
  simp [sameStructures]

theorem sameStructures_cons :
    sameStructures (a :: as) bs = true ↔
      ∃ b others, bs = b :: others ∧ a.sameStructure b = true ∧
        sameStructures as others = true := by
  cases bs with
  | nil => simp [sameStructures]
  | cons b others =>
    simp only [sameStructures, Bool.and_eq_true]
    constructor
    · exact fun h => ⟨b, others, rfl, h⟩
    · rintro ⟨_, _, h, h'⟩
      cases h
      exact h'

mutual

theorem sameStructure_symm (a b : Node) (h : a.sameStructure b = true) :
    b.sameStructure a = true := by
  obtain ⟨kind, children, value, fragments, location, hash, valueInHash⟩ := a
  obtain ⟨hkind, hvalue, hchildren⟩ := sameStructure_iff.mp h
  exact sameStructure_iff.mpr
    ⟨hkind.symm, PartialEquivBEq.symm hvalue, sameStructures_symm children b.children hchildren⟩

theorem sameStructures_symm (as bs : List Node) (h : sameStructures as bs = true) :
    sameStructures bs as = true := by
  cases as with
  | nil =>
    rw [sameStructures_nil.mp h]
    rfl
  | cons a as =>
    obtain ⟨b, others, rfl, hhead, htail⟩ := sameStructures_cons.mp h
    exact sameStructures_cons.mpr
      ⟨a, as, rfl, sameStructure_symm a b hhead, sameStructures_symm as others htail⟩

end

mutual

theorem sameStructure_trans (a b c : Node) (hab : a.sameStructure b = true)
    (hbc : b.sameStructure c = true) : a.sameStructure c = true := by
  obtain ⟨kind, children, value, fragments, location, hash, valueInHash⟩ := a
  obtain ⟨hkind, hvalue, hchildren⟩ := sameStructure_iff.mp hab
  obtain ⟨hkind', hvalue', hchildren'⟩ := sameStructure_iff.mp hbc
  exact sameStructure_iff.mpr ⟨hkind.trans hkind', PartialEquivBEq.trans hvalue hvalue',
    sameStructures_trans children b.children c.children hchildren hchildren'⟩

theorem sameStructures_trans (as bs cs : List Node) (hab : sameStructures as bs = true)
    (hbc : sameStructures bs cs = true) : sameStructures as cs = true := by
  cases as with
  | nil => rwa [sameStructures_nil.mp hab] at hbc
  | cons a as =>
    obtain ⟨b, others, rfl, hhead, htail⟩ := sameStructures_cons.mp hab
    obtain ⟨c, others', rfl, hhead', htail'⟩ := sameStructures_cons.mp hbc
    exact sameStructures_cons.mpr ⟨c, others', rfl, sameStructure_trans a b c hhead hhead',
      sameStructures_trans as others others' htail htail'⟩

end

end Node
end Homoicon
