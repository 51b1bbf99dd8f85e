import Homoicon.Proofs.Table.Placement
import Mathlib.Data.List.InsertIdx

/-! What a map holds after any history of changes. -/
namespace Homoicon.Table

def valueOf (key : Node) (bounds : List Bound) : Option Node :=
  (bounds.find? fun b => sameKey b.key key).map (·.value)

/-- A map and its entries: in order of their hashes, and no two of the same key. -/
structure Holds (map : Node) (bounds : List Bound) : Prop where
  kind : map.kind = .map
  children : map.children = bounds.map Bound.node
  ordered : bounds.Pairwise (·.hash ≤ ·.hash)
  distinct : bounds.Pairwise fun a b => sameKey a.key b.key = false

variable {map key other : Node} {hash : UInt64} {bounds front back : List Bound} {b new : Bound}

theorem sameKey_eq_false_symm {a b : Node} (h : sameKey a b = false) : sameKey b a = false :=
  Bool.eq_false_iff.mpr fun hba => by rw [sameKey_symm hba] at h; cases h

theorem sameKey_eq_false_trans {a b c : Node} (hab : sameKey a b = true)
    (hbc : sameKey b c = false) : sameKey a c = false :=
  Bool.eq_false_iff.mpr fun hac => by
    rw [sameKey_trans (sameKey_symm hab) hac] at hbc
    cases hbc

theorem not_sameKey_of_unhashable (hkey : key.hash = none) (hother : other.hash.isSome = true) :
    sameKey key other = false := by
  obtain ⟨hash, hhash⟩ := Option.isSome_iff_exists.mp hother
  unfold sameKey
  rw [hkey, hhash]
  rfl

theorem valueOf_eq_none (h : ∀ b ∈ bounds, sameKey b.key key = false) :
    valueOf key bounds = none := by
  unfold valueOf
  rw [List.find?_eq_none.mpr fun b hb => Bool.eq_false_iff.mp (h b hb)]
  rfl

theorem valueOf_of_sameKey (hfront : ∀ b ∈ front, sameKey b.key key = false)
    (hb : sameKey b.key key = true) : valueOf key (front ++ b :: back) = some b.value := by
  have hnone : front.find? (fun b => sameKey b.key key) = none :=
    List.find?_eq_none.mpr fun b hb => Bool.eq_false_iff.mp (hfront b hb)
  unfold valueOf
  rw [List.find?_append, hnone, Option.none_or, List.find?_cons, hb]
  rfl

theorem valueOf_of_not_sameKey (hb : sameKey b.key key = false) :
    valueOf key (front ++ b :: back) = valueOf key (front ++ back) := by
  unfold valueOf
  rw [List.find?_append, List.find?_append, List.find?_cons, hb]

/-- Entries with one more, which takes the place of the one of the same key or, if there is none,
comes behind all whose hashes are no greater. -/
def place (new : Bound) : List Bound → List Bound
  | [] => [new]
  | b :: rest =>
    if new.hash < b.hash then new :: b :: rest
    else if sameKey b.key new.key then new :: rest
    else b :: place new rest

def without (key : Node) (bounds : List Bound) : List Bound :=
  bounds.filter fun b => !sameKey b.key key

theorem mem_without : b ∈ without key bounds ↔ b ∈ bounds ∧ sameKey b.key key = false := by
  simp [without]

theorem without_eq_self (h : ∀ b ∈ bounds, sameKey b.key key = false) :
    without key bounds = bounds :=
  List.filter_eq_self.mpr fun b hb => by rw [h b hb, Bool.not_false]

theorem without_of_sameKey (hb : sameKey b.key key = true)
    (h : ∀ other ∈ front ++ back, sameKey other.key key = false) :
    without key (front ++ b :: back) = front ++ back := by
  unfold without
  rw [List.filter_append, List.filter_cons_of_neg (by simp [hb]), ← List.filter_append]
  exact without_eq_self h

theorem valueOf_without :
    valueOf other (without key bounds) =
      if sameKey key other then none else valueOf other bounds := by
  split
  · next hother =>
    exact valueOf_eq_none fun b hb => sameKey_eq_false_symm (sameKey_eq_false_trans
      (sameKey_symm hother) (sameKey_eq_false_symm (mem_without.mp hb).2))
  · next hother =>
    -- an entry that answers for the other key is not the one that is left out
    have hstays : ∀ b : Bound,
        (!sameKey b.key key && sameKey b.key other) = sameKey b.key other := by
      intro b
      cases hb : sameKey b.key other with
      | false => rw [Bool.and_false]
      | true =>
        have hkey := sameKey_eq_false_symm (Bool.eq_false_iff.mpr hother)
        rw [sameKey_eq_false_trans hb hkey, Bool.not_false, Bool.true_and]
    unfold valueOf without
    simp only [List.find?_filter, ← Bool.and_eq_true, hstays, Bool.decide_eq_true]

theorem place_append
    (hfront : ∀ b ∈ front, b.hash ≤ new.hash ∧ sameKey b.key new.key = false) :
    place new (front ++ back) = front ++ place new back := by
  induction front with
  | nil => rfl
  | cons b front ih =>
    obtain ⟨⟨hle, hb⟩, hfront⟩ := List.forall_mem_cons.mp hfront
    rw [List.cons_append, place, if_neg (UInt64.not_lt.mpr hle), if_neg (Bool.eq_false_iff.mp hb),
      ih hfront, List.cons_append]

/-- Entries that are put around a new one are in order with it. -/
structure Surround (new : Bound) (front back : List Bound) : Prop where
  front_le : ∀ b ∈ front, b.hash ≤ new.hash
  le_back : ∀ b ∈ back, new.hash ≤ b.hash
  free : ∀ b ∈ front ++ back, sameKey b.key new.key = false

namespace Surround
variable (h : Surround new front back)
include h

/-- A new entry answers for its key, and the others answer as before. -/
theorem valueOf_eq :
    valueOf other (front ++ new :: back) =
      if sameKey new.key other then some new.value else valueOf other (front ++ back) := by
  split
  · next hother =>
    have hfront : ∀ b ∈ front, sameKey b.key other = false := fun b hb => sameKey_eq_false_symm
      (sameKey_eq_false_trans (sameKey_symm hother)
        (sameKey_eq_false_symm (h.free b (List.mem_append_left _ hb))))
    exact valueOf_of_sameKey hfront hother
  · next hother => exact valueOf_of_not_sameKey (Bool.eq_false_iff.mpr hother)

theorem distinct (hdistinct : (front ++ back).Pairwise fun a b => sameKey a.key b.key = false) :
    (front ++ new :: back).Pairwise fun a b => sameKey a.key b.key = false :=
  (List.pairwise_middle sameKey_eq_false_symm).mpr
    (List.pairwise_cons.mpr ⟨fun b hb => sameKey_eq_false_symm (h.free b hb), hdistinct⟩)

theorem ordered (hordered : (front ++ back).Pairwise (·.hash ≤ ·.hash)) :
    (front ++ new :: back).Pairwise (·.hash ≤ ·.hash) := by
  obtain ⟨hfront, hback, hacross⟩ := List.pairwise_append.mp hordered
  exact List.pairwise_append.mpr ⟨hfront, List.pairwise_cons.mpr ⟨h.le_back, hback⟩,
    fun a ha => List.forall_mem_cons.mpr ⟨h.front_le a ha, hacross a ha⟩⟩

end Surround

theorem Holds.free (h : Holds map (front ++ b :: back)) (hb : sameKey b.key key = true) :
    ∀ other ∈ front ++ back, sameKey other.key key = false := by
  have hdistinct := (List.pairwise_middle sameKey_eq_false_symm).mp h.distinct
  intro other hother
  exact sameKey_eq_false_symm
    (sameKey_eq_false_trans (sameKey_symm hb) ((List.pairwise_cons.mp hdistinct).1 other hother))

section Operations
variable (h : Holds map bounds)
include h

theorem Holds.without_entry (key : Node) :
    Holds (map.withChildren ((without key bounds).map Bound.node)) (without key bounds) :=
  ⟨h.kind, rfl, h.ordered.sublist List.filter_sublist, h.distinct.sublist List.filter_sublist⟩

/-- Where a key stands, its entry is placed among the others. -/
theorem Holds.place_of_stands (new : Bound) {slot : Slot}
    (hstands : Stands new.key new.hash bounds slot) :
    (∃ front back, place new bounds = front ++ new :: back ∧
      without new.key bounds = front ++ back ∧ Surround new front back) ∧
      match slot with
      | .found index => place new bounds = bounds.set index new
      | .vacant index => place new bounds = bounds.insertIdx index new := by
  cases hstands with
  | @found front back b hb hfront =>
    have hhash : b.hash = new.hash := by
      rw [sameKey_eq new.key_hash, Bool.and_eq_true, beq_iff_eq] at hb
      exact hb.1
    obtain ⟨-, hback, hacross⟩ := List.pairwise_append.mp h.ordered
    have hfront' : ∀ other ∈ front, other.hash ≤ new.hash := fun other hother =>
      hhash ▸ hacross other hother b List.mem_cons_self
    have hback' : ∀ other ∈ back, new.hash ≤ other.hash := fun other hother =>
      hhash ▸ (List.pairwise_cons.mp hback).1 other hother
    have hplace : place new (front ++ b :: back) = front ++ new :: back := by
      rw [place_append fun other hother => ⟨hfront' other hother, hfront other hother⟩, place,
        if_neg (UInt64.not_lt.mpr (UInt64.le_of_eq hhash)), if_pos hb]
    have hfree := h.free hb
    exact ⟨⟨front, back, hplace, without_of_sameKey hb hfree, hfront', hback', hfree⟩,
      by simp [hplace]⟩
  | @vacant front back hfree hfront hback =>
    have hfront' : ∀ other ∈ front, other.hash ≤ new.hash ∧ sameKey other.key new.key = false :=
      fun other hother => ⟨hfront other hother, hfree other (List.mem_append_left _ hother)⟩
    have hback' : ∀ other ∈ back, new.hash ≤ other.hash := fun other hother =>
      UInt64.le_of_lt (hback other hother)
    have hplace : place new (front ++ back) = front ++ new :: back := by
      rw [place_append hfront']
      cases back with
      | nil => rfl
      | cons first back => rw [place, if_pos (hback first List.mem_cons_self)]
    exact ⟨⟨front, back, hplace, without_eq_self hfree, hfront, hback', hfree⟩,
      hplace.trans (Bisection.insertIdx_append ..).symm⟩

/-- A new entry is placed among the entries of other keys. -/
theorem Holds.place_eq (new : Bound) :
    ∃ front back, place new bounds = front ++ new :: back ∧
      without new.key bounds = front ++ back ∧ Surround new front back := by
  obtain ⟨slot, -, hstands⟩ := locate_node new.key_hash h.ordered
  exact (h.place_of_stands new hstands).1

theorem Holds.with_entry (new : Bound) :
    Holds (map.withChildren ((place new bounds).map Bound.node)) (place new bounds) := by
  obtain ⟨front, back, hplace, hwithout, hnew⟩ := h.place_eq new
  have hothers := h.without_entry new.key
  rw [hwithout] at hothers
  rw [hplace]
  exact ⟨h.kind, rfl, hnew.ordered hothers.ordered, hnew.distinct hothers.distinct⟩

theorem Holds.valueOf_place (new : Bound) :
    valueOf other (place new bounds) =
      if sameKey new.key other then some new.value else valueOf other bounds := by
  obtain ⟨front, back, hplace, hwithout, hnew⟩ := h.place_eq new
  rw [hplace, hnew.valueOf_eq, ← hwithout, valueOf_without]
  split <;> rfl

section Search
variable (hkey : key.hash = some hash)
include hkey

theorem search_holds (operation : String) :
    ∃ slot, search map key operation = .ok (bounds.map Bound.node, slot) ∧
      Stands key hash bounds slot := by
  obtain ⟨slot, hslot, hstands⟩ := locate_node hkey h.ordered
  refine ⟨slot, ?_, hstands⟩
  have hmap : isMap map = true := beq_iff_eq.mpr h.kind
  unfold search entries keyHash
  rw [if_pos hmap, h.children, hkey]
  change (locate _ key hash).mapError Failure.malformed >>= (fun slot => .ok (_, slot)) = _
  rw [hslot]
  rfl

/-- A map answers with what it holds. -/
theorem get?_holds : get? map key = .ok (valueOf key bounds) := by
  obtain ⟨slot, hslot, hstands⟩ := search_holds h hkey "get from"
  unfold get?
  rw [hslot]
  cases hstands with
  | @found front back b hb hfront =>
    rw [valueOf_of_sameKey hfront hb]
    have hentry : ((front ++ b :: back).map Bound.node)[front.length]? = some b.node := by simp
    simp only [bind, Except.bind, hentry, child_node]
    rfl
  | vacant hnone =>
    rw [valueOf_eq_none hnone]
    rfl

/-- An insertion places an entry. -/
theorem insert_eq_place (value : Node) :
    insert map key value =
      .ok (map.withChildren ((place ⟨key, value, hash, hkey⟩ bounds).map Bound.node)) := by
  obtain ⟨slot, hslot, hstands⟩ := search_holds h hkey "insert into"
  have hplace := (h.place_of_stands ⟨key, value, hash, hkey⟩ hstands).2
  unfold insert
  rw [hslot]
  cases slot with
  | found index =>
    rw [hplace, List.map_set]
    rfl
  | vacant index =>
    rw [hplace, List.map_insertIdx]
    rfl

/-- A removal leaves the entries of other keys. -/
theorem erase_holds :
    ∃ changed, Table.erase map key = .ok changed ∧ Holds changed (without key bounds) := by
  obtain ⟨slot, hslot, hstands⟩ := search_holds h hkey "remove from"
  unfold Table.erase
  rw [hslot]
  cases hstands with
  | @found front back b hb hfront =>
    have hchildren : ((front ++ b :: back).map Bound.node).eraseIdx front.length =
        (without key (front ++ b :: back)).map Bound.node := by
      rw [without_of_sameKey hb (h.free hb), List.map_append, List.map_append, List.map_cons,
        List.eraseIdx_append_of_length_le (by simp)]
      simp
    exact ⟨_, congrArg (Except.ok <| map.withChildren ·) hchildren, h.without_entry key⟩
  | vacant hfree =>
    rw [without_eq_self hfree]
    exact ⟨map, rfl, h⟩

end Search

end Operations

/-- A change to a map: a changed copy that takes the map's place, or a change in place. -/
inductive Change
  | insert (key value : Node)
  | insertInPlace (key value : Node)
  | erase (key : Node)
  | eraseInPlace (key : Node)

theorem inPlace_snd (operation : Node → Except Failure Node) (map : Node) :
    (inPlace operation map).2 = (operation map).toOption.getD map := by
  unfold inPlace
  cases operation map <;> rfl

namespace Change

/-- The map after a change. One that fails leaves the map as it was. -/
def apply (map : Node) : Change → Node
  | insert key value => (Table.insert map key value).toOption.getD map
  | insertInPlace key value => (Table.insertInPlace map key value).2
  | erase key => (Table.erase map key).toOption.getD map
  | eraseInPlace key => (Table.eraseInPlace map key).2

theorem apply_insertInPlace (map key value : Node) :
    (insertInPlace key value).apply map = (insert key value).apply map := inPlace_snd _ _

theorem apply_eraseInPlace (map key : Node) :
    (eraseInPlace key).apply map = (erase key).apply map := inPlace_snd _ _

def revise (bounds : List Bound) : Change → List Bound
  | insert key value | insertInPlace key value => (Bound.of? key value).elim bounds (place · bounds)
  | erase key | eraseInPlace key => without key bounds

def effect (key : Node) (value : Option Node) : Change → Option Node
  | insert other new | insertInPlace other new => if sameKey other key then some new else value
  | erase other | eraseInPlace other => if sameKey other key then none else value

end Change

/-- Why an operation refuses a map or a key, if it does. -/
def refusal? (map key : Node) (operation : String) : Option Misuse :=
  if !isMap map then some ⟨.notAMap operation, map.location⟩
  else if key.hash.isNone then some ⟨.unhashable, key.location⟩
  else none

section Refusal
variable {operation : String} {misuse : Misuse}

theorem search_refused (h : refusal? map key operation = some misuse) :
    search map key operation = .error (.misuse misuse) := by
  unfold refusal? at h
  unfold search entries keyHash
  split at h
  · next hmap =>
    cases h
    rw [if_neg (by simpa using hmap)]
    rfl
  · next hmap =>
    split at h
    · next hhash =>
      cases h
      rw [if_pos (by simpa using hmap), Option.isNone_iff_eq_none.mp hhash]
      rfl
    · cases h

theorem get?_refused (h : refusal? map key "get from" = some misuse) :
    get? map key = .error (.misuse misuse) := by
  unfold get?
  rw [search_refused h]
  rfl

theorem insert_refused (value : Node) (h : refusal? map key "insert into" = some misuse) :
    insert map key value = .error (.misuse misuse) := by
  unfold insert
  rw [search_refused h]
  rfl

theorem erase_refused (h : refusal? map key "remove from" = some misuse) :
    Table.erase map key = .error (.misuse misuse) := by
  unfold Table.erase
  rw [search_refused h]
  rfl

end Refusal

theorem inPlace_error {operation : Node → Except Failure Node} {failure : Failure}
    (h : operation map = .error failure) : inPlace operation map = (.error failure, map) := by
  unfold inPlace
  rw [h]

namespace Holds

theorem empty (location : Location) : Holds (empty location) [] := ⟨rfl, rfl, .nil, .nil⟩

variable (h : Holds map bounds)
include h

theorem refusal_of_unhashable (operation : String) (hkey : key.hash = none) :
    refusal? map key operation = some ⟨.unhashable, key.location⟩ := by
  have hmap : isMap map = true := beq_iff_eq.mpr h.kind
  unfold refusal?
  rw [hmap, hkey]
  rfl

theorem insert (key value : Node) :
    Holds ((Table.insert map key value).toOption.getD map)
      ((Change.insert key value).revise bounds) := by
  cases hkey : key.hash with
  | some hash =>
    rw [insert_eq_place h hkey, Change.revise, Bound.of?_eq_some hkey]
    exact h.with_entry _
  | none =>
    rw [insert_refused value (h.refusal_of_unhashable _ hkey), Change.revise,
      Bound.of?_eq_none hkey]
    exact h

theorem remove (key : Node) :
    Holds ((Table.erase map key).toOption.getD map) (without key bounds) := by
  cases hkey : key.hash with
  | some hash =>
    obtain ⟨changed, herase, hlater⟩ := erase_holds h hkey
    rwa [herase]
  | none =>
    rw [erase_refused (h.refusal_of_unhashable _ hkey), without_eq_self fun b _ =>
      sameKey_eq_false_symm (not_sameKey_of_unhashable hkey b.isSome_hash)]
    exact h

/-- After any change a map holds what the change makes of the entries that it held. -/
theorem apply (change : Change) : Holds (change.apply map) (change.revise bounds) := by
  cases change with
  | insert key value => exact h.insert key value
  | insertInPlace key value =>
    rw [Change.apply_insertInPlace]
    exact h.insert key value
  | erase key => exact h.remove key
  | eraseInPlace key =>
    rw [Change.apply_eraseInPlace]
    exact h.remove key

theorem valueOf_insert (key value : Node) (hother : other.hash.isSome = true) :
    valueOf other ((Change.insert key value).revise bounds) =
      (Change.insert key value).effect other (valueOf other bounds) := by
  cases hkey : key.hash with
  | some hash =>
    rw [Change.revise, Bound.of?_eq_some hkey]
    exact h.valueOf_place _
  | none =>
    rw [Change.revise, Bound.of?_eq_none hkey, Change.effect,
      not_sameKey_of_unhashable hkey hother]
    rfl

theorem valueOf_apply (change : Change) (hother : other.hash.isSome = true) :
    valueOf other (change.revise bounds) = change.effect other (valueOf other bounds) := by
  cases change with
  | insert key value | insertInPlace key value => exact h.valueOf_insert key value hother
  | erase key | eraseInPlace key => exact valueOf_without

theorem foldl_apply (history : List Change) :
    Holds (history.foldl Change.apply map) (history.foldl Change.revise bounds) := by
  induction history generalizing map bounds with
  | nil => exact h
  | cons change history ih => exact ih (h.apply change)

theorem history (history : List Change) :
    ∃ later, Holds (history.foldl Change.apply map) later ∧ ∀ key, key.hash.isSome = true →
      valueOf key later = history.foldl (Change.effect key) (valueOf key bounds) := by
  refine ⟨_, h.foldl_apply history, fun key hkey => ?_⟩
  induction history generalizing map bounds with
  | nil => rfl
  | cons change history ih =>
    rw [List.foldl_cons, List.foldl_cons, ih (h.apply change), h.valueOf_apply change hkey]

end Holds

/-- Whatever has been done to a map that was empty, it answers for a key with the value of the last
insertion of the same key that no removal of the same key came after. An operation on a node that is
no map, or with a key that has no hash, is refused and leaves the node as it is. -/
theorem get?_history (location : Location) (history : List Change) :
    (∀ key, key.hash.isSome = true →
      get? (history.foldl Change.apply (empty location)) key =
        .ok (history.foldl (Change.effect key) none)) ∧
    ∀ (map key value : Node) (misuse : Misuse),
      (refusal? map key "get from" = some misuse → get? map key = .error (.misuse misuse)) ∧
      (refusal? map key "insert into" = some misuse →
        insert map key value = .error (.misuse misuse) ∧
          insertInPlace map key value = (.error (.misuse misuse), map)) ∧
      (refusal? map key "remove from" = some misuse →
        Table.erase map key = .error (.misuse misuse) ∧
          eraseInPlace map key = (.error (.misuse misuse), map)) := by
  constructor
  · intro key hkey
    obtain ⟨later, hlater, hvalue⟩ := (Holds.empty location).history history
    obtain ⟨hash, hhash⟩ := Option.isSome_iff_exists.mp hkey
    rw [get?_holds hlater hhash, hvalue key hkey]
    rfl
  · intro map key value misuse
    refine ⟨get?_refused, fun h => ?_, fun h => ?_⟩
    · have hinsert := insert_refused value h
      exact ⟨hinsert, inPlace_error hinsert⟩
    · have herase := erase_refused h
      exact ⟨herase, inPlace_error herase⟩

/-- Two keys of one hash, the second of which stays when the first is removed. -/
theorem get?_history_collision :
    let a := Node.new .nameSymbol [] (.text "true") {} .unknown
    let b := Node.new .nameSymbol [] (.flag true) {} .unknown
    let one := Node.number 1 "1" .unknown
    let two := Node.number 2 "2" .unknown
    let history := [.insert a one, .insertInPlace b two, .insert b one, .eraseInPlace a,
      .erase (empty .unknown)]
    (a.hash = b.hash ∧ b.hash.isSome = true) ∧
      get? (history.foldl Change.apply (empty .unknown)) b = .ok (some one) ∧
      refusal? one b "get from" = some ⟨.notAMap "get from", .unknown⟩ ∧
      get? one b = .error (.misuse ⟨.notAMap "get from", .unknown⟩) := by
  intro a b one two history
  have hcollision : a.hash = b.hash ∧ b.hash.isSome = true := by decide +kernel
  obtain ⟨hget, hrefused⟩ := get?_history .unknown history
  have hrefusal : refusal? one b "get from" = some ⟨.notAMap "get from", .unknown⟩ := rfl
  refine ⟨hcollision, ?_, hrefusal, (hrefused one b one _).1 hrefusal⟩
  have hsame : sameKey b b = true ∧ sameKey a b = false ∧ sameKey (empty .unknown) b = false := by
    decide +kernel
  have heffect : history.foldl (Change.effect b) none = some one := by
    simp [history, Change.effect, hsame]
  rw [hget b hcollision.2, heffect]

end Homoicon.Table
