import Homoicon.Pattern
import Homoicon.Proofs.Node.Structure
import Homoicon.Table

/-! Trees of the same structure have the same hash, unless zeros in them differ in sign. -/
namespace Homoicon

namespace Value

def sameSign : Value → Value → Bool
  | number x, number y => (Decimal.parts x).isNegative == (Decimal.parts y).isNegative
  | _, _ => true

/-- Equal values are shown alike but for the sign of zero. -/
theorem display_eq_of_beq {a b : Value} (h : (a == b) = true) (hsign : a.sameSign b = true) :
    a.display = b.display := by
  rcases beq_iff.mp h with ⟨x, y, rfl, rfl, heq⟩ | ⟨rfl, -⟩
  · exact Decimal.Layout.plainest.display_eq_of_beq heq (beq_iff_eq.mp hsign)
  · rfl

end Value

namespace Node

mutual

/-- Whether every node of a tree is hashable and has its value in its hash. -/
def IsNew : Node → Prop
  | ⟨kind, children, value, fragments, location, hash, valueInHash⟩ =>
    ⟨kind, children, value, fragments, location, hash, valueInHash⟩ =
      new kind children value fragments location ∧ AreNew children

def AreNew : List Node → Prop
  | [] => True
  | node :: nodes => node.IsNew ∧ AreNew nodes

end

mutual

/-- Whether numbers at the same places of two trees have the same sign. -/
def sameSigns : Node → Node → Bool
  | ⟨_, children, value, _, _, _, _⟩, other =>
    value.sameSign other.value && allSameSigns children other.children

def allSameSigns : List Node → List Node → Bool
  | [], _ => true
  | node :: nodes, others =>
    match others with
    | [] => true
    | other :: others => sameSigns node other && allSameSigns nodes others

end

variable {a b : Node} {as bs : List Node}

theorem isNew_iff :
    a.IsNew ↔ a = new a.kind a.children a.value a.fragments a.location ∧ AreNew a.children := by
  cases a
  rfl

theorem sameSigns_iff :
    a.sameSigns b = true ↔
      a.value.sameSign b.value = true ∧ allSameSigns a.children b.children = true := by
  cases a
  simp [sameSigns]

theorem structuralHash_congr {kind : Kind} {value other : Value} {valueInHash : Bool}
    (hchildren : as.map hash = bs.map hash) (hvalue : value.display = other.display) :
    structuralHash kind as value valueInHash = structuralHash kind bs other valueInHash := by
  have hfold : ∀ nodes : List Node,
      nodes.foldlM (fun word (child : Node) => child.hash.map (Digest.mixChild word))
          (Digest.ofText kind.name) =
        (nodes.map hash).foldlM (fun word hash => hash.map (Digest.mixChild word))
          (Digest.ofText kind.name) := fun nodes => by rw [List.foldlM_map]
  unfold structuralHash
  rw [hfold, hfold, hchildren, hvalue]

mutual

theorem hash_eq_of_sameSigns (a b : Node) (ha : a.IsNew) (hb : b.IsNew)
    (h : a.sameStructure b = true) (hsigns : a.sameSigns b = true) : a.hash = b.hash := by
  obtain ⟨kind, children, value, fragments, location, hash, valueInHash⟩ := a
  obtain ⟨hkind, hvalue, hchildren⟩ := sameStructure_iff.mp h
  obtain ⟨hsign, hsigns⟩ := sameSigns_iff.mp hsigns
  obtain ⟨ha, hnew⟩ := isNew_iff.mp ha
  obtain ⟨hb, hnew'⟩ := isNew_iff.mp hb
  have hhashes := hashes_eq_of_sameSigns children b.children hnew hnew' hchildren hsigns
  calc
    hash = structuralHash kind children value true := congrArg Node.hash ha
    _ = structuralHash kind b.children b.value true :=
      structuralHash_congr hhashes (Value.display_eq_of_beq hvalue hsign)
    _ = structuralHash b.kind b.children b.value true := by rw [← hkind]
    _ = b.hash := (congrArg Node.hash hb).symm

theorem hashes_eq_of_sameSigns (as bs : List Node) (ha : AreNew as) (hb : AreNew bs)
    (h : sameStructures as bs = true) (hsigns : allSameSigns as bs = true) :
    as.map hash = bs.map hash := by
  cases as with
  | nil => rw [sameStructures_nil.mp h]
  | cons a as =>
    obtain ⟨b, others, rfl, hhead, htail⟩ := sameStructures_cons.mp h
    obtain ⟨hsign, hsigns⟩ := (Bool.and_eq_true _ _).mp hsigns
    rw [List.map_cons, List.map_cons, hash_eq_of_sameSigns a b ha.1 hb.1 hhead hsign,
      hashes_eq_of_sameSigns as others ha.2 hb.2 htail hsigns]

end

theorem structuralHash_isSome (kind : Kind) (value : Value) (valueInHash : Bool)
    (h : ∀ a ∈ as, a.hash.isSome = true) :
    (structuralHash kind as value valueInHash).isSome = true := by
  have hfold : ∀ word, ((as.foldlM (fun word (child : Node) =>
      child.hash.map (Digest.mixChild word)) word)).isSome = true := by
    induction as with
    | nil => exact fun _ => rfl
    | cons a as ih =>
      intro word
      obtain ⟨hhead, htail⟩ := List.forall_mem_cons.mp h
      obtain ⟨child, hchild⟩ := Option.isSome_iff_exists.mp hhead
      rw [List.foldlM_cons, hchild]
      exact ih htail _
  unfold structuralHash
  rw [Option.isSome_map]
  exact hfold _

mutual

theorem IsNew.hash_isSome (a : Node) (h : a.IsNew) : a.hash.isSome = true := by
  obtain ⟨kind, children, value, fragments, location, hash, valueInHash⟩ := a
  obtain ⟨hself, hchildren⟩ := isNew_iff.mp h
  rw [hself]
  exact structuralHash_isSome kind value true (AreNew.hash_isSome children hchildren)

theorem AreNew.hash_isSome (as : List Node) (h : AreNew as) : ∀ a ∈ as, a.hash.isSome = true := by
  cases as with
  | nil => exact List.forall_mem_nil _
  | cons a as =>
    exact List.forall_mem_cons.mpr ⟨IsNew.hash_isSome a h.1, AreNew.hash_isSome as h.2⟩

end

end Node

namespace Table

/-- A key is looked for by its hash and its structure alone. -/
theorem search_congr {a b : Node} {word : UInt64} (ha : a.hash = some word)
    (hb : b.hash = some word) (h : a.sameStructure b = true) (map : Node) (operation : String) :
    search map a operation = search map b operation := by
  have hscan : ∀ index entries, scanRun a word index entries = scanRun b word index entries := by
    intro index entries
    induction entries generalizing index with
    | nil => rfl
    | cons entry rest ih =>
      have hsame : ∀ candidate : Node, candidate.sameStructure a = candidate.sameStructure b :=
        fun candidate => Bool.eq_iff_iff.mpr
          ⟨(Node.sameStructure_trans _ _ _ · h),
            (Node.sameStructure_trans _ _ _ · (Node.sameStructure_symm a b h))⟩
      unfold scanRun
      simp only [hsame, ih]
  have hlocate : ∀ entries, locate entries a word = locate entries b word := fun entries => by
    unfold locate
    simp only [hscan]
  have hkey : keyHash a = .ok word ∧ keyHash b = .ok word := by
    unfold keyHash
    rw [ha, hb]
    exact ⟨rfl, rfl⟩
  unfold search
  rw [hkey.1, hkey.2]
  refine bind_congr fun entries => ?_
  exact congrArg (fun slot => slot.mapError Failure.malformed >>= fun slot => .ok (entries, slot))
    (hlocate entries)

end Table

/-- Trees of the same structure whose numbers have the same signs have the same hash, whatever they
were written as. So a pattern of one accepts the other, and a map does not tell them apart. -/
theorem hash_eq_of_sameStructure {a b : Node} (ha : a.IsNew) (hb : b.IsNew)
    (h : a.sameStructure b = true) (hsigns : a.sameSigns b = true) :
    (a.hash = b.hash ∧ a.hash.isSome = true) ∧
      (Test.ofValue b.kind b.hash).passes a = .ok true ∧
      ∀ map operation, Table.search map a operation = Table.search map b operation := by
  have hhash := Node.hash_eq_of_sameSigns a b ha hb h hsigns
  have hsome := Node.IsNew.hash_isSome a ha
  obtain ⟨word, hword⟩ := Option.isSome_iff_exists.mp hsome
  refine ⟨⟨hhash, hsome⟩, ?_, Table.search_congr hword (hhash ▸ hword) h⟩
  obtain ⟨hkind, -, -⟩ := Node.sameStructure_iff.mp h
  simp [Test.passes, hkind, ← hhash, hsome]

theorem hash_eq_of_respelled :
    let a := Node.block .roundBlock
      [.number 291 "291" .unknown, .string "x" "x" "'" .unknown] "(" ")" .unknown
    let b := Node.block .roundBlock
      [.number 291 "0x123" .unknown, .string "x" "\\x78" "\"" .unknown] "(" ")" .unknown
    (a.IsNew ∧ b.IsNew ∧ a.sameStructure b = true ∧ a.sameSigns b = true) ∧
      (a.hash = b.hash ∧ a.hash.isSome = true) ∧
      (Test.ofValue b.kind b.hash).passes a = .ok true ∧
      ∀ map operation, Table.search map a operation = Table.search map b operation := by
  intro a b
  have ha : a.IsNew := ⟨rfl, ⟨rfl, trivial⟩, ⟨rfl, trivial⟩, trivial⟩
  have hb : b.IsNew := ⟨rfl, ⟨rfl, trivial⟩, ⟨rfl, trivial⟩, trivial⟩
  have h : a.sameStructure b = true := by decide +kernel
  have hsigns : a.sameSigns b = true := by decide +kernel
  exact ⟨⟨ha, hb, h, hsigns⟩, hash_eq_of_sameStructure ha hb h hsigns⟩

/-- The two zeros are equal, and they are shown with different signs. -/
example : (Node.number 0 "0" .unknown).sameStructure (.number (-0.0) "-0b0" .unknown) = true ∧
    (Node.number 0 "0" .unknown).hash ≠ (Node.number (-0.0) "-0b0" .unknown).hash := by
  decide +kernel

end Homoicon
