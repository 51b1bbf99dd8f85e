import Homoicon.Proofs.Digest
import Homoicon.Proofs.Node.Hashing

/-! Nodes whose values are shown with one byte of difference are told apart by their hashes. -/
namespace Homoicon

namespace Node
variable {a b : Node}

theorem IsNew.hash_eq (h : a.IsNew) :
    a.hash = structuralHash a.kind a.children a.value true :=
  congrArg hash (isNew_iff.mp h).1

/-- What is shown of a value is mixed into a word that the kind and the children determine. -/
theorem exists_structuralHash_eq (kind : Kind) {as : List Node}
    (h : ∀ a ∈ as, a.hash.isSome = true) :
    ∃ word, ∀ value, structuralHash kind as value true =
      some (Digest.mixValue word (Digest.ofText value.display)) := by
  obtain ⟨hash, hhash⟩ := Option.isSome_iff_exists.mp (structuralHash_isSome kind .none true h)
  obtain ⟨word, hword, -⟩ := Option.map_eq_some_iff.mp hhash
  refine ⟨word, fun value => ?_⟩
  unfold structuralHash
  rw [hword]
  rfl

/-- One byte of difference in what is shown of their values tells apart any two nodes of a kind that
are hashed over the same hashes of children. -/
theorem hash_ne_of_oneByteApart (ha : a.IsNew) (hb : b.IsNew) (hkind : a.kind = b.kind)
    (hchildren : a.children.map hash = b.children.map hash)
    (h : OneByteApart a.value.display b.value.display) : a.hash ≠ b.hash := by
  obtain ⟨word, hword⟩ :=
    exists_structuralHash_eq a.kind (AreNew.hash_isSome a.children (isNew_iff.mp ha).2)
  intro heq
  have hwords : some (Digest.mixValue word (Digest.ofText a.value.display)) =
      some (Digest.mixValue word (Digest.ofText b.value.display)) :=
    calc
      some (Digest.mixValue word (Digest.ofText a.value.display)) = a.hash := by
        rw [ha.hash_eq, hword]
      _ = b.hash := heq
      _ = structuralHash a.kind a.children b.value true := by
        rw [hb.hash_eq, ← hkind, structuralHash_congr hchildren.symm rfl]
      _ = some (Digest.mixValue word (Digest.ofText b.value.display)) := hword b.value
  exact h.ofText_ne (Digest.mixValue_injective word (Option.some.inj hwords))

end Node

/-- A difference of one byte is never lost: texts that differ so have different hashes, every step
that takes in a value or a child is injective, and so leaves that are shown with such a difference
have different hashes, and a pattern for the one refuses the other. -/
theorem hash_separates_oneByteApart :
    (∀ s t, OneByteApart s t → Digest.ofText s ≠ Digest.ofText t) ∧
      (∀ hash, Function.Injective (Digest.mixValue hash)) ∧
      (∀ a b : Node, a.IsNew → b.IsNew → a.children = [] → b.children = [] → a.kind = b.kind →
        OneByteApart a.value.display b.value.display →
        (a.hash.isSome = true ∧ b.hash.isSome = true ∧ a.hash ≠ b.hash) ∧
          (Test.ofValue b.kind b.hash).passes a = .ok false) ∧
      (∀ hash, Function.Injective (Digest.mixChild hash)) ∧
      ∀ child, Function.Injective (Digest.mixChild · child) := by
  refine ⟨fun s t h => h.ofText_ne, Digest.mixValue_injective,
    fun a b ha hb hleaf hleaf' hkind h => ?_, Digest.mixChild_injective,
    Digest.mixChild_injective_left⟩
  have hne := Node.hash_ne_of_oneByteApart ha hb hkind (by rw [hleaf, hleaf']) h
  refine ⟨⟨Node.IsNew.hash_isSome a ha, Node.IsNew.hash_isSome b hb, hne⟩, ?_⟩
  simp [Test.passes, hne]

theorem hash_separates_accents :
    let a := Node.name "né" .unknown
    let b := Node.name "nè" .unknown
    (OneByteApart "né" "nè" ∧ a.IsNew ∧ b.IsNew ∧ a.children = [] ∧ b.children = [] ∧
        a.kind = b.kind ∧ OneByteApart a.value.display b.value.display) ∧
      Digest.ofText "né" ≠ Digest.ofText "nè" ∧
      Digest.mixValue (Digest.ofText "number") 0 ≠ Digest.mixValue (Digest.ofText "number") 1 ∧
      ((a.hash.isSome = true ∧ b.hash.isSome = true ∧ a.hash ≠ b.hash) ∧
        (Test.ofValue b.kind b.hash).passes a = .ok false) ∧
      Digest.mixChild 0 0 ≠ Digest.mixChild 0 1 ∧ Digest.mixChild 0 0 ≠ Digest.mixChild 1 0 := by
  intro a b
  have hone : OneByteApart "né" "nè" := by decide
  have ha : a.IsNew := ⟨rfl, trivial⟩
  have hb : b.IsNew := ⟨rfl, trivial⟩
  obtain ⟨htexts, hvalues, hleaves, hchildren, hhashes⟩ := hash_separates_oneByteApart
  exact ⟨⟨hone, ha, hb, rfl, rfl, rfl, hone⟩, htexts _ _ hone, (hvalues _).ne (by decide),
    hleaves a b ha hb rfl rfl rfl hone, (hchildren 0).ne (by decide), (hhashes 0).ne (by decide)⟩

end Homoicon
