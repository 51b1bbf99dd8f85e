import Homoicon.Bisection
import Homoicon.Proofs.Failure
import Homoicon.Proofs.Node.Structure
import Homoicon.Table

/-! Where a key is found among the entries of a map. -/
namespace Homoicon.Table

/-- Whether two keys are the same: equal hashes tell nothing by themselves. -/
def sameKey (a b : Node) : Bool := a.hash == b.hash && a.sameStructure b

/-- A key that has a hash, with its value. -/
structure Bound where
  key : Node
  value : Node
  hash : UInt64
  key_hash : key.hash = some hash

namespace Bound

def node (b : Bound) : Node := entry b.key b.value

/-- A key with its value, if the key has a hash. -/
def of? (key value : Node) : Option Bound :=
  match h : key.hash with
  | some hash => some ⟨key, value, hash, h⟩
  | none => none

variable {key value : Node}

theorem of?_eq_some {hash : UInt64} (hkey : key.hash = some hash) :
    of? key value = some ⟨key, value, hash, hkey⟩ := by
  unfold of?
  split
  · next hash' hkey' =>
    cases hkey.symm.trans hkey'
    rfl
  · next hnone => cases hkey.symm.trans hnone

theorem isSome_hash (b : Bound) : b.key.hash.isSome = true := by
  rw [b.key_hash]
  rfl

theorem of?_eq_none (hkey : key.hash = none) : of? key value = none := by
  unfold of?
  split
  · next hash hkey' => cases hkey.symm.trans hkey'
  · rfl

end Bound

theorem sameKey_self {key : Node} (h : key.sameStructure key = true) : sameKey key key = true := by
  rw [sameKey, h, beq_self_eq_true]
  rfl

theorem sameKey_symm {a b : Node} (h : sameKey a b = true) : sameKey b a = true := by
  unfold sameKey at *
  rw [Bool.and_eq_true, beq_iff_eq] at *
  exact ⟨h.1.symm, Node.sameStructure_symm a b h.2⟩

theorem sameKey_trans {a b c : Node} (hab : sameKey a b = true) (hbc : sameKey b c = true) :
    sameKey a c = true := by
  unfold sameKey at *
  rw [Bool.and_eq_true, beq_iff_eq] at *
  exact ⟨hab.1.trans hbc.1, Node.sameStructure_trans a b c hab.2 hbc.2⟩

variable {key : Node} {hash : UInt64} {bounds below rest : List Bound}

theorem keyOf_node (b : Bound) : keyOf b.node = .ok b.key := rfl

theorem child_node (b : Bound) : b.node.child 1 = .ok b.value := rfl

theorem isBefore_node (b : Bound) : isBefore hash b.node = .ok (decide (b.hash < hash)) := by
  unfold isBefore
  rw [keyOf_node]
  simp [Except.map, b.key_hash]

theorem bisect_node (base size : Nat) :
    bisect (bounds.map Bound.node) hash base size =
      .ok (Bisection.narrow (fun b => decide (b.hash < hash)) bounds base size) := by
  fun_induction Bisection.narrow (fun b : Bound => decide (b.hash < hash)) bounds base size with
  | case1 base size hsize => rw [bisect, if_pos hsize]
  | case2 base size hsize half ih =>
    rw [bisect, if_neg hsize]
    dsimp only
    rw [List.getElem?_map]
    cases hentry : bounds[base + half]? with
    | none => simpa [hentry, ok_bind] using ih
    | some b => simpa [hentry, isBefore_node, ok_bind] using ih

theorem lowerBound_node :
    lowerBound (bounds.map Bound.node) hash =
      .ok (Bisection.point (fun b => decide (b.hash < hash)) bounds) := by
  unfold lowerBound Bisection.point
  rw [List.length_map, bisect_node, ok_bind]
  dsimp only
  rw [List.getElem?_map]
  cases bounds[Bisection.narrow (fun b => decide (b.hash < hash)) bounds 0 bounds.length]? with
  | none => rfl
  | some b =>
    rw [Option.map_some]
    dsimp only
    rw [isBefore_node, ok_bind]

/-- Where a key of a hash stands among entries: at the first that has the same key or, if none has,
between the entries whose hashes are no greater and those whose hashes are greater. -/
inductive Stands (key : Node) (hash : UInt64) : List Bound → Slot → Prop
  | found {front back : List Bound} {b : Bound} (hb : sameKey b.key key = true)
      (hfront : ∀ other ∈ front, sameKey other.key key = false) :
      Stands key hash (front ++ b :: back) (.found front.length)
  | vacant {front back : List Bound}
      (hnone : ∀ other ∈ front ++ back, sameKey other.key key = false)
      (hfront : ∀ other ∈ front, other.hash ≤ hash) (hback : ∀ other ∈ back, hash < other.hash) :
      Stands key hash (front ++ back) (.vacant front.length)

variable (hkey : key.hash = some hash)
include hkey

theorem sameKey_eq (b : Bound) :
    sameKey b.key key = (b.hash == hash && b.key.sameStructure key) := by
  unfold sameKey
  rw [b.key_hash, hkey]
  rfl

theorem not_sameKey_of_ne {b : Bound} (h : b.hash ≠ hash) : sameKey b.key key = false := by
  rw [sameKey_eq hkey, beq_eq_false_iff_ne.mpr h, Bool.false_and]

theorem scanRun_node {front : List Bound} (hordered : rest.Pairwise (·.hash ≤ ·.hash))
    (hrest : ∀ b ∈ rest, hash ≤ b.hash) (hfront : ∀ b ∈ front, b.hash ≤ hash)
    (hnone : ∀ b ∈ front, sameKey b.key key = false) :
    ∃ slot, scanRun key hash front.length (rest.map Bound.node) = .ok slot ∧
      Stands key hash (front ++ rest) slot := by
  induction rest generalizing front with
  | nil =>
    refine ⟨_, rfl, .vacant ?_ hfront (List.forall_mem_nil _)⟩
    rwa [List.append_nil]
  | cons b rest ih =>
    obtain ⟨hlater, hordered⟩ := List.pairwise_cons.mp hordered
    obtain ⟨hb, hrest⟩ := List.forall_mem_cons.mp hrest
    simp only [List.map_cons, scanRun, keyOf_node, bind, Except.bind, b.key_hash]
    split
    · next hne =>
      have hlt : hash < b.hash := UInt64.lt_of_le_of_ne hb fun h => hne (congrArg some h.symm)
      have hback : ∀ other ∈ b :: rest, hash < other.hash :=
        List.forall_mem_cons.mpr ⟨hlt, fun other h => UInt64.lt_of_lt_of_le hlt (hlater other h)⟩
      refine ⟨_, rfl, .vacant (List.forall_mem_append.mpr ⟨hnone, fun other h => ?_⟩) hfront hback⟩
      exact not_sameKey_of_ne hkey (UInt64.ne_of_lt (hback other h)).symm
    · next heq =>
      have heq : b.hash = hash := Option.some.inj (Decidable.of_not_not heq)
      have hsame := sameKey_eq hkey b
      rw [heq, beq_self_eq_true, Bool.true_and] at hsame
      split
      · next h => exact ⟨_, rfl, .found (hsame.trans h) hnone⟩
      · next h =>
        have hfront' : ∀ other ∈ front ++ [b], other.hash ≤ hash :=
          List.forall_mem_append.mpr
            ⟨hfront, List.forall_mem_singleton.mpr (heq ▸ UInt64.le_refl _)⟩
        have hnone' : ∀ other ∈ front ++ [b], sameKey other.key key = false :=
          List.forall_mem_append.mpr
            ⟨hnone, List.forall_mem_singleton.mpr (hsame.trans (Bool.eq_false_iff.mpr h))⟩
        have hnext := ih hordered hrest hfront' hnone'
        rwa [List.length_append, List.append_assoc] at hnext

theorem locate_node (hordered : bounds.Pairwise (·.hash ≤ ·.hash)) :
    ∃ slot, locate (bounds.map Bound.node) key hash = .ok slot ∧ Stands key hash bounds slot := by
  have hbefore : bounds.Pairwise fun a b => decide (b.hash < hash) = true →
      decide (a.hash < hash) = true := hordered.imp fun hle hlt =>
    decide_eq_true (UInt64.lt_of_le_of_lt hle (of_decide_eq_true hlt))
  obtain ⟨below, rest, rfl, hpoint, hbelow, hrest⟩ := Bisection.exists_point _ hbefore
  replace hbelow : ∀ b ∈ below, b.hash < hash := fun b hb => of_decide_eq_true (hbelow b hb)
  replace hrest : ∀ b ∈ rest, hash ≤ b.hash := fun b hb =>
    UInt64.not_lt.mp (of_decide_eq_false (hrest b hb))
  have hdrop : ((below ++ rest).map Bound.node).drop below.length = rest.map Bound.node := by
    rw [List.map_append, List.drop_left' (List.length_map _)]
  obtain ⟨slot, hslot, hstands⟩ := scanRun_node hkey (List.pairwise_append.mp hordered).2.1 hrest
    (fun b h => UInt64.le_of_lt (hbelow b h))
    (fun b h => not_sameKey_of_ne hkey (UInt64.ne_of_lt (hbelow b h)))
  refine ⟨slot, ?_, hstands⟩
  unfold locate
  rw [lowerBound_node, hpoint, ok_bind, hdrop, hslot]

end Homoicon.Table
