import Homoicon.Proofs.Table.Representation
import Mathlib.Data.List.Sort

/-! A map depends on what it holds, and not on how it came to hold it. -/
namespace Homoicon.Table

/-- Keys of equal hashes are the same, each of them as itself too. -/
def Unambiguous (keys : List Node) : Prop :=
  ∀ a ∈ keys, ∀ b ∈ keys, a.hash.isSome = true → a.hash = b.hash → a.sameStructure b = true

instance (keys : List Node) : Decidable (Unambiguous keys) :=
  inferInstanceAs (Decidable (∀ a ∈ keys, ∀ b ∈ keys, _))

namespace Change

def key : Change → Node
  | insert key _ | insertInPlace key _ | erase key | eraseInPlace key => key

/-- What a change makes of the binding of a key, which is the key and the value inserted last. -/
def bind (key : Node) (binding : Option (Node × Node)) : Change → Option (Node × Node)
  | insert other new | insertInPlace other new =>
    if sameKey other key then some (other, new) else binding
  | erase other | eraseInPlace other => if sameKey other key then none else binding

end Change

variable {map key value : Node} {hash : UInt64} {bounds : List Bound} {a b new : Bound}

theorem Bound.eq_of_binding (hkey : a.key = b.key) (hvalue : a.value = b.value) : a = b := by
  obtain ⟨key, value, hash, hhash⟩ := a
  obtain ⟨key', value', hash', hhash'⟩ := b
  subst hkey hvalue
  cases hhash.symm.trans hhash'
  rfl

theorem Bound.hash_eq_of_sameKey (h : sameKey a.key b.key = true) : a.hash = b.hash := by
  rw [sameKey_eq b.key_hash, Bool.and_eq_true, beq_iff_eq] at h
  exact h.1

theorem place_comm_of_lt (hlt : a.hash < b.hash) :
    place a (place b bounds) = place b (place a bounds) := by
  have hnot : ¬b.hash < a.hash := UInt64.not_lt.mpr (UInt64.le_of_lt hlt)
  have hab : ¬sameKey a.key b.key = true := fun h =>
    UInt64.ne_of_lt hlt (Bound.hash_eq_of_sameKey h)
  induction bounds with
  | nil => simp only [place, if_pos hlt, if_neg hnot, if_neg hab]
  | cons c bounds ih =>
    by_cases hac : a.hash < c.hash
    · -- whatever the other entry is placed before or in place of, this one comes first
      have hfirst : place a (place b (c :: bounds)) = a :: place b (c :: bounds) := by
        simp only [place]
        split
        · rw [place, if_pos hlt]
        · split
          · rw [place, if_pos hlt]
          · rw [place, if_pos hac]
      have hswap : place b (place a (c :: bounds)) = a :: place b (c :: bounds) := by
        rw [place, if_pos hac, place, if_neg hnot, if_neg hab]
      rw [hfirst, hswap]
    · have hca : c.hash ≤ a.hash := UInt64.not_lt.mp hac
      have hcb : c.hash < b.hash := UInt64.lt_of_le_of_lt hca hlt
      have hbc : ¬b.hash < c.hash := UInt64.not_lt.mpr (UInt64.le_of_lt hcb)
      have hother : ¬sameKey c.key b.key = true := fun h =>
        UInt64.ne_of_lt hcb (Bound.hash_eq_of_sameKey h)
      have hlater : place b (c :: bounds) = c :: place b bounds := by
        rw [place, if_neg hbc, if_neg hother]
      rw [hlater, place, if_neg hac, place, if_neg hac]
      split
      · rw [place, if_neg hnot, if_neg hab]
      · rw [ih, place, if_neg hbc, if_neg hother]

theorem place_comm (hne : a.hash ≠ b.hash) :
    place a (place b bounds) = place b (place a bounds) := by
  rcases UInt64.lt_or_lt_of_ne hne with hlt | hlt
  · exact place_comm_of_lt hlt
  · exact (place_comm_of_lt hlt).symm

namespace Holds
variable (h : Holds map bounds)
include h

theorem mem_place :
    b ∈ place new bounds ↔ b = new ∨ b ∈ bounds ∧ sameKey b.key new.key = false := by
  obtain ⟨front, back, hplace, hwithout, -⟩ := h.place_eq new
  rw [hplace, ← mem_without, hwithout, List.mem_append, List.mem_cons, List.mem_append]
  exact or_left_comm

section Bindings
variable {binding : Option (Node × Node)} (hb : sameKey b.key b.key = true)
  (hbinding : b ∈ bounds ↔ binding = some (b.key, b.value))
include hb hbinding

theorem mem_revise_insert (key value : Node) :
    b ∈ (Change.insert key value).revise bounds ↔
      (Change.insert key value).bind b.key binding = some (b.key, b.value) := by
  cases hkey : key.hash with
  | none =>
    rw [Change.revise, Bound.of?_eq_none hkey, Change.bind,
      not_sameKey_of_unhashable hkey b.isSome_hash]
    exact hbinding
  | some hash =>
    rw [Change.revise, Bound.of?_eq_some hkey, Change.bind, Option.elim_some, h.mem_place]
    split
    · next hsame =>
      have hreplaced : ¬(b ∈ bounds ∧ sameKey b.key key = false) := fun hother => by
        rw [sameKey_symm hsame] at hother
        exact Bool.noConfusion hother.2
      rw [or_iff_left hreplaced]
      constructor
      · rintro rfl
        rfl
      · intro heq
        obtain ⟨hkey', hvalue⟩ := Prod.mk.inj (Option.some.inj heq)
        exact Bound.eq_of_binding hkey'.symm hvalue.symm
    · next hsame =>
      have hne : b ≠ ⟨key, value, hash, hkey⟩ := fun heq => hsame (by rw [heq] at hb ⊢; exact hb)
      rw [or_iff_right hne, and_iff_left (sameKey_eq_false_symm (Bool.eq_false_iff.mpr hsame))]
      exact hbinding

omit h hb in
theorem mem_without_iff (key : Node) :
    b ∈ without key bounds ↔
      (if sameKey key b.key then none else binding) = some (b.key, b.value) := by
  rw [mem_without]
  split
  · next hsame => simp [sameKey_symm hsame]
  · next hsame =>
    rw [and_iff_left (sameKey_eq_false_symm (Bool.eq_false_iff.mpr hsame))]
    exact hbinding

/-- An entry whose key is the same as itself is held if and only if it is what its key is bound to,
and so after a change too. -/
theorem mem_revise (change : Change) :
    b ∈ change.revise bounds ↔ change.bind b.key binding = some (b.key, b.value) := by
  cases change with
  | insert key value | insertInPlace key value => exact h.mem_revise_insert hb hbinding key value
  | erase key | eraseInPlace key => exact mem_without_iff hbinding key

theorem mem_history (history : List Change) :
    b ∈ history.foldl Change.revise bounds ↔
      history.foldl (Change.bind b.key) binding = some (b.key, b.value) := by
  induction history generalizing map bounds binding with
  | nil => exact hbinding
  | cons change history ih => exact ih (h.apply change) (h.mem_revise hb hbinding change)

end Bindings

theorem mem_or_key_eq_insert {key value : Node}
    (hb : b ∈ (Change.insert key value).revise bounds) : b ∈ bounds ∨ b.key = key := by
  cases hkey : key.hash with
  | none =>
    rw [Change.revise, Bound.of?_eq_none hkey] at hb
    exact .inl hb
  | some hash =>
    rw [Change.revise, Bound.of?_eq_some hkey, Option.elim_some, h.mem_place] at hb
    rcases hb with rfl | ⟨hb, -⟩
    · exact .inr rfl
    · exact .inl hb

theorem mem_or_key_eq {change : Change} (hb : b ∈ change.revise bounds) :
    b ∈ bounds ∨ b.key = change.key := by
  cases change with
  | insert key value | insertInPlace key value => exact h.mem_or_key_eq_insert hb
  | erase key | eraseInPlace key => exact .inl (mem_without.mp hb).1

theorem key_mem_of_history {history : List Change}
    (hb : b ∈ history.foldl Change.revise bounds) :
    b ∈ bounds ∨ b.key ∈ history.map Change.key := by
  induction history generalizing map bounds with
  | nil => exact .inl hb
  | cons change history ih =>
    rw [List.map_cons, List.mem_cons]
    rcases ih (h.apply change) hb with hmem | hmem
    · rcases h.mem_or_key_eq hmem with hbefore | hkey
      · exact .inl hbefore
      · exact .inr (.inl hkey)
    · exact .inr (.inr hmem)

theorem pairwise_hash_lt {keys : List Node} (hkeys : Unambiguous keys)
    (hmem : ∀ b ∈ bounds, b.key ∈ keys) : bounds.Pairwise (·.hash < ·.hash) := by
  refine (h.ordered.and h.distinct).imp_of_mem fun {a b} ha hb ⟨hle, hdistinct⟩ => ?_
  refine UInt64.lt_of_le_of_ne hle fun heq => ?_
  have hhash : a.key.hash = b.key.hash := by rw [a.key_hash, b.key_hash, heq]
  have hsame := hkeys _ (hmem a ha) _ (hmem b hb) a.isSome_hash hhash
  rw [sameKey, hhash, hsame, beq_self_eq_true] at hdistinct
  cases hdistinct

end Holds

/-- Whether a map has nothing but its entries to tell it from an empty one. -/
def IsPlain (location : Location) (map : Node) : Prop :=
  map = (empty location).withChildren map.children

section Plain
variable {location : Location}

theorem isPlain_withChildren (map : Node) (children : List Node) (hmap : IsPlain location map) :
    IsPlain location (map.withChildren children) := by
  unfold IsPlain
  rw [hmap]
  rfl

theorem isPlain_history (location : Location) (history : List Change) :
    IsPlain location (history.foldl Change.apply (empty location)) :=
  kept_history isPlain_withChildren (show IsPlain location (empty location) from rfl) history

theorem eq_withChildren_of_holds (h : Holds map bounds) (hmap : IsPlain location map) :
    map = (empty location).withChildren (bounds.map Bound.node) := by
  rw [hmap, h.children]

/-- A map after two insertions. -/
theorem insert_insert {other : Node} {hash' : UInt64} (h : Holds map bounds)
    (hmap : IsPlain location map) (hkey : key.hash = some hash) (hother : other.hash = some hash')
    (value new : Node) :
    (insert map key value >>= (insert · other new)) =
      .ok ((empty location).withChildren ((place ⟨other, new, hash', hother⟩
        (place ⟨key, value, hash, hkey⟩ bounds)).map Bound.node)) := by
  rw [insert_eq_place h hkey, ok_bind, insert_eq_place (h.with_entry _) hother, hmap]
  rfl

theorem without_place (h : Holds map bounds) (new : Bound) (hsame : sameKey new.key new.key = true)
    (habsent : valueOf new.key bounds = none) : without new.key (place new bounds) = bounds := by
  have hnone : ∀ b ∈ bounds, sameKey b.key new.key = false := fun b hb =>
    Bool.eq_false_iff.mpr (List.find?_eq_none.mp (Option.map_eq_none_iff.mp habsent) b hb)
  obtain ⟨front, back, hplace, hwithout, hnew⟩ := h.place_eq new
  rw [hplace, without_of_sameKey hsame hnew.free, ← hwithout, without_eq_self hnone]

/-- Removing a key that was absent before its insertion gives back the map. -/
theorem erase_insert (h : Holds map bounds) (hmap : IsPlain location map)
    (hkey : key.hash = some hash) (hself : key.sameStructure key = true)
    (habsent : valueOf key bounds = none) (value : Node) :
    ∃ changed, insert map key value = .ok changed ∧ Table.erase changed key = .ok map := by
  have hinsert := insert_eq_place h hkey value
  have hplaced := h.with_entry ⟨key, value, hash, hkey⟩
  obtain ⟨erased, herase, hrest⟩ := erase_holds hplaced hkey
  rw [without_place h ⟨key, value, hash, hkey⟩ (sameKey_self hself) habsent] at hrest
  have herased := kept_erase isPlain_withChildren (isPlain_withChildren map _ hmap) herase
  refine ⟨_, hinsert, ?_⟩
  rw [herase, eq_withChildren_of_holds hrest herased, ← eq_withChildren_of_holds h hmap]

end Plain

section Unique
variable {first second : List Change}

/-- Histories that leave the same bindings leave the same entries. -/
theorem subset_of_bindings (location : Location)
    (hkeys : Unambiguous ((first ++ second).map Change.key))
    (hbindings : ∀ key ∈ (first ++ second).map Change.key, key.hash.isSome = true →
      first.foldl (Change.bind key) none = second.foldl (Change.bind key) none) :
    ∀ b ∈ first.foldl Change.revise [], b ∈ second.foldl Change.revise [] := by
  intro b hb
  have hempty := Holds.empty location
  have hkey : b.key ∈ (first ++ second).map Change.key := by
    rw [List.map_append]
    exact List.mem_append_left _ ((hempty.key_mem_of_history hb).resolve_left List.not_mem_nil)
  have hsame := sameKey_self (hkeys _ hkey _ hkey b.isSome_hash rfl)
  have hnone : b ∈ ([] : List Bound) ↔ none = some (b.key, b.value) := by simp
  rw [hempty.mem_history hsame hnone] at hb ⊢
  rwa [← hbindings _ hkey b.isSome_hash]

theorem unambiguous_comm (hkeys : Unambiguous ((first ++ second).map Change.key)) :
    Unambiguous ((second ++ first).map Change.key) := by
  have hperm : ((second ++ first).map Change.key).Perm ((first ++ second).map Change.key) :=
    List.perm_append_comm.map _
  exact fun a ha b hb => hkeys a (hperm.mem_iff.mp ha) b (hperm.mem_iff.mp hb)

theorem entries_eq_of_bindings (location : Location)
    (hkeys : Unambiguous ((first ++ second).map Change.key))
    (hbindings : ∀ key ∈ (first ++ second).map Change.key, key.hash.isSome = true →
      first.foldl (Change.bind key) none = second.foldl (Change.bind key) none) :
    first.foldl Change.revise [] = second.foldl Change.revise [] := by
  have hempty := Holds.empty location
  have hstrict (history : List Change)
      (hsubset : ∀ key ∈ history.map Change.key, key ∈ (first ++ second).map Change.key) :
      (history.foldl Change.revise []).Pairwise (·.hash < ·.hash) :=
    (hempty.foldl_apply history).pairwise_hash_lt hkeys fun b hb =>
      hsubset _ ((hempty.key_mem_of_history hb).resolve_left List.not_mem_nil)
  have hfirst := hstrict first fun key hkey => by
    rw [List.map_append]
    exact List.mem_append_left _ hkey
  have hsecond := hstrict second fun key hkey => by
    rw [List.map_append]
    exact List.mem_append_right _ hkey
  have hswapped : ∀ key ∈ (second ++ first).map Change.key, key.hash.isSome = true →
      second.foldl (Change.bind key) none = first.foldl (Change.bind key) none :=
    fun key hkey hsome => by
      refine (hbindings key ?_ hsome).symm
      rw [List.map_append] at hkey ⊢
      exact List.mem_append.mpr (List.mem_append.mp hkey).symm
  have : Std.Irrefl fun a b : Bound => a.hash < b.hash := ⟨fun _ => UInt64.lt_irrefl _⟩
  have : Std.Antisymm fun a b : Bound => a.hash < b.hash :=
    ⟨fun _ _ hab hba => absurd hba (UInt64.lt_asymm hab)⟩
  exact hfirst.eq_of_mem_iff hsecond fun b => ⟨subset_of_bindings location hkeys hbindings b,
    subset_of_bindings location (unambiguous_comm hkeys) hswapped b⟩

end Unique

/-- Two histories of a map that was empty, in which keys of equal hashes are the same key, leave the
same map if they leave the same bindings: whatever their order, and whatever was replaced or removed
on the way. Of any map with a history, entries of keys with different hashes may be inserted in
either order, and the insertion of an absent key is undone by its removal. -/
theorem history_eq_of_bindings (location : Location) (first second : List Change) :
    let map := first.foldl Change.apply (empty location)
    (Unambiguous ((first ++ second).map Change.key) →
      (∀ key ∈ (first ++ second).map Change.key, key.hash.isSome = true →
        first.foldl (Change.bind key) none = second.foldl (Change.bind key) none) →
      map = second.foldl Change.apply (empty location)) ∧
    (∀ a b x y : Node, a.hash.isSome = true → b.hash.isSome = true → a.hash ≠ b.hash →
      ∃ changed, (insert map a x >>= (insert · b y)) = .ok changed ∧
        (insert map b y >>= (insert · a x)) = .ok changed) ∧
    ∀ key value : Node, key.hash.isSome = true → key.sameStructure key = true →
      get? map key = .ok none →
      ∃ changed, insert map key value = .ok changed ∧ Table.erase changed key = .ok map := by
  intro map
  have hplain := isPlain_history location first
  have hholds := (Holds.empty location).foldl_apply first
  refine ⟨fun hkeys hbindings => ?_, fun a b x y ha hb hne => ?_,
    fun key value hkey hself hnone => ?_⟩
  · have hholds' := (Holds.empty location).foldl_apply second
    rw [eq_withChildren_of_holds hholds' (isPlain_history location second),
      ← entries_eq_of_bindings location hkeys hbindings]
    exact eq_withChildren_of_holds hholds hplain
  · obtain ⟨hash, ha⟩ := Option.isSome_iff_exists.mp ha
    obtain ⟨hash', hb⟩ := Option.isSome_iff_exists.mp hb
    have hne' : hash ≠ hash' := fun heq => hne (by rw [ha, hb, heq])
    refine ⟨_, insert_insert hholds hplain ha hb x y, ?_⟩
    rw [insert_insert hholds hplain hb ha y x]
    exact congrArg (fun bounds => Except.ok ((empty location).withChildren
      (List.map Bound.node bounds))) (place_comm hne')
  · obtain ⟨hash, hkey⟩ := Option.isSome_iff_exists.mp hkey
    rw [get?_holds hholds hkey] at hnone
    exact erase_insert hholds hplain hkey hself (Except.ok.inj hnone) value

/-- Two names bound in either order, one of them again or after it was removed. -/
theorem history_eq_of_bindings_reordered :
    let a := Node.name "a" .unknown
    let b := Node.name "b" .unknown
    let c := Node.name "c" .unknown
    let one := Node.number 1 "1" .unknown
    let two := Node.number 2 "2" .unknown
    let first := [.insert a one, .insertInPlace b one, .insert b two]
    let second := [.insert b two, .insert c two, .insertInPlace a two, .erase c, .eraseInPlace a,
      .insert a one]
    let map := first.foldl Change.apply (empty .unknown)
    map = second.foldl Change.apply (empty .unknown) ∧
      (∃ changed, (insert map c one >>= (insert · a two)) = .ok changed ∧
        (insert map a two >>= (insert · c one)) = .ok changed) ∧
      ∃ changed, insert map c one = .ok changed ∧ Table.erase changed c = .ok map := by
  intro a b c one two first second map
  obtain ⟨hunique, hcomm, hundone⟩ := history_eq_of_bindings .unknown first second
  have hkeys : Unambiguous ((first ++ second).map Change.key) := by decide +kernel
  have hsame : sameKey a a = true ∧ sameKey b b = true ∧ sameKey c c = true ∧
      sameKey a b = false ∧ sameKey b a = false ∧ sameKey a c = false ∧ sameKey c a = false ∧
      sameKey b c = false ∧ sameKey c b = false := by decide +kernel
  have hsome : a.hash.isSome = true ∧ c.hash.isSome = true ∧ c.hash ≠ a.hash := by decide +kernel
  have habsent : get? map c = .ok none := by
    obtain ⟨later, hlater, hvalue⟩ := (Holds.empty .unknown).history first
    obtain ⟨hash, hhash⟩ := Option.isSome_iff_exists.mp hsome.2.1
    rw [get?_holds hlater hhash, hvalue c hsome.2.1]
    simp [first, Change.effect, hsame, valueOf]
  refine ⟨hunique hkeys ?_, hcomm c a one two hsome.2.1 hsome.1 hsome.2.2,
    hundone c one hsome.2.1 (by decide +kernel) habsent⟩
  simp [first, second, Change.key, Change.bind, hsame]

end Homoicon.Table
