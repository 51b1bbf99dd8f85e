import Homoicon.Proofs.Table.History

/-! What a map looks like after any history of changes. -/
namespace Homoicon.Table

/-- A node of a map: a pair of a key, which has a hash, and a value. -/
def IsEntry (node : Node) : Prop :=
  node.kind = .keyValuePair ∧
    ∃ key value, node.children = [key, value] ∧ key.hash.isSome = true

def keys (map : Node) : List Node := map.children.filterMap (·.children.head?)

/-- A node is a map that was created at a location: it has no hash, the fragments and the location
that it was created with, an entry for each child, and keys whose hashes are in order and no two of
which are the same. -/
structure Represents (location : Location) (map : Node) : Prop where
  kind : map.kind = .map
  hash : map.hash = none
  fragments : map.fragments = ⟨"[", "]", ", "⟩
  location : map.location = location
  entries : ∀ node ∈ map.children, IsEntry node
  ordered : (keys map).Pairwise fun a b => ∃ word ∈ a.hash, ∃ word' ∈ b.hash, word ≤ word'
  distinct : ∀ (i j : Nat) (a b : Node), i ≠ j → (keys map)[i]? = some a →
    (keys map)[j]? = some b → ¬(a.hash = b.hash ∧ a.sameStructure b = true)

/-- A node is like a map except for its children and its hash, which it has only if the map has one.
-/
structure Resembles (map changed : Node) : Prop where
  kind : changed.kind = map.kind
  hash : map.hash = none → changed.hash = none
  fragments : changed.fragments = map.fragments
  location : changed.location = map.location

variable {map changed key value : Node} {bounds : List Bound}

theorem Resembles.refl (map : Node) : Resembles map map := ⟨rfl, id, rfl, rfl⟩

theorem Resembles.trans {last : Node} (h : Resembles map changed) (h' : Resembles changed last) :
    Resembles map last where
  kind := h'.kind.trans h.kind
  hash := fun hnone => h'.hash (h.hash hnone)
  fragments := h'.fragments.trans h.fragments
  location := h'.location.trans h.location

theorem resembles_withChildren (map : Node) (children : List Node) :
    Resembles map (map.withChildren children) where
  kind := rfl
  hash := fun hnone => by
    unfold Node.withChildren
    rw [hnone]
    rfl
  fragments := rfl
  location := rfl

section Kept
variable {P : Node → Prop} (hP : ∀ map children, P map → P (map.withChildren children))
include hP

theorem kept_insert (hmap : P map) (h : insert map key value = .ok changed) : P changed := by
  obtain ⟨⟨entries, slot⟩, -, h⟩ := bind_eq_ok.mp h
  cases slot <;>
  · cases h
    exact hP map _ hmap

theorem kept_erase (hmap : P map) (h : Table.erase map key = .ok changed) : P changed := by
  obtain ⟨⟨entries, slot⟩, -, h⟩ := bind_eq_ok.mp h
  cases slot with
  | found index =>
    cases h
    exact hP map _ hmap
  | vacant index =>
    cases h
    exact hmap

/-- What holds whatever children a map has stays so under any change, which may fail. -/
theorem kept_apply (hmap : P map) (change : Change) : P (change.apply map) := by
  have hgetD : ∀ result : Except Failure Node, (∀ changed, result = .ok changed → P changed) →
      P (result.toOption.getD map) := by
    intro result h
    cases result with
    | error failure => exact hmap
    | ok changed => exact h changed rfl
  cases change with
  | insert key value => exact hgetD _ fun _ => kept_insert hP hmap
  | insertInPlace key value =>
    rw [Change.apply_insertInPlace]
    exact hgetD _ fun _ => kept_insert hP hmap
  | erase key => exact hgetD _ fun _ => kept_erase hP hmap
  | eraseInPlace key =>
    rw [Change.apply_eraseInPlace]
    exact hgetD _ fun _ => kept_erase hP hmap

theorem kept_history (hmap : P map) (history : List Change) :
    P (history.foldl Change.apply map) := by
  induction history generalizing map with
  | nil => exact hmap
  | cons change history ih => exact ih (kept_apply hP hmap change)

end Kept

theorem resembles_history (map : Node) (history : List Change) :
    Resembles map (history.foldl Change.apply map) :=
  kept_history (fun _ children h => h.trans (resembles_withChildren _ children)) (.refl map) history

theorem isEntry_node (b : Bound) : IsEntry b.node :=
  ⟨rfl, b.key, b.value, rfl, by rw [b.key_hash]; rfl⟩

namespace Holds
variable (h : Holds map bounds)
include h

theorem keys_eq : keys map = bounds.map Bound.key := by
  unfold keys
  rw [h.children, List.filterMap_map, ← List.filterMap_eq_map]
  rfl

/-- Keys in two places of a map are not the same. -/
theorem not_same {i j : Nat} {a b : Node} (hne : i ≠ j) (ha : (keys map)[i]? = some a)
    (hb : (keys map)[j]? = some b) : sameKey a b = false := by
  rw [h.keys_eq] at ha hb
  have hdistinct : (bounds.map Bound.key).Pairwise fun a b => sameKey a b = false :=
    List.pairwise_map.mpr h.distinct
  obtain ⟨hi, rfl⟩ := List.getElem?_eq_some_iff.mp ha
  obtain ⟨hj, rfl⟩ := List.getElem?_eq_some_iff.mp hb
  rcases Nat.lt_or_gt_of_ne hne with hlt | hlt
  · exact List.pairwise_iff_getElem.mp hdistinct i j hi hj hlt
  · exact sameKey_eq_false_symm (List.pairwise_iff_getElem.mp hdistinct j i hj hi hlt)

/-- A map that holds entries, and is otherwise as it was created, is what a map has to be. -/
theorem represents {location : Location} (hmap : Resembles (Table.empty location) map) :
    Represents location map where
  kind := h.kind
  hash := hmap.hash rfl
  fragments := hmap.fragments
  location := hmap.location
  entries := by
    rw [h.children]
    exact List.forall_mem_map.mpr fun b _ => isEntry_node b
  ordered := by
    rw [h.keys_eq]
    refine List.pairwise_map.mpr (h.ordered.imp fun {a b} hle => ?_)
    exact ⟨a.hash, a.key_hash, b.hash, b.key_hash, hle⟩
  distinct := by
    rintro i j a b hne ha hb ⟨hhash, hsame⟩
    have hnot := h.not_same hne ha hb
    unfold sameKey at hnot
    rw [hhash, hsame, beq_self_eq_true] at hnot
    cases hnot

end Holds

/-- Whatever has been done to a map that was empty, some of it without success, the map is a map
node without a hash, with the fragments and the location that it was created with; its children are
pairs of a key, which has a hash, and a value; the hashes of the keys do not decrease, and no two
entries have the same key. -/
theorem represents_history (location : Location) (history : List Change) :
    Represents location (history.foldl Change.apply (empty location)) := by
  obtain ⟨later, hlater, -⟩ := (Holds.empty location).history history
  exact hlater.represents (resembles_history (empty location) history)

end Homoicon.Table
