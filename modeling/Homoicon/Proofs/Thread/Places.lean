import Homoicon.Proofs.Thread.Sound
import Mathlib.Algebra.GroupWithZero.Nat

/-! All places of a pattern, listed as they are written in it. -/
namespace Homoicon

namespace Pattern

mutual

/-- How many instructions of a pattern consume a node. -/
def tests : Pattern → Nat
  | group _ _ items => testsAll items
  | .test _ => 1
  | _ => 0

def testsAll : List Pattern → Nat
  | [] => 0
  | item :: items => item.tests + testsAll items

end

end Pattern

namespace Thread

/-- At the next item of the innermost group, whatever its shape. -/
def following (t : Thread) : Thread := { t with top := { t.top with index := t.top.index + 1 } }

mutual

/-- The places inside an item that a thread has come to. -/
def inside (t : Thread) : Pattern → List Thread
  | .group mark shape items => along (t.enter mark shape items 0) items
  | _ => []

/-- The places from where a thread stands, with these items to come, to the end of its group. -/
def along (t : Thread) : List Pattern → List Thread
  | [] => [t]
  | item :: items => t :: (inside t item ++ along t.following items)

end

variable {t u : Thread} {items : List Pattern}

/-- The items that a thread has to come to are those of its group from where it stands. -/
def Faces (t : Thread) (items : List Pattern) : Prop := t.top.items.drop t.top.index = items

theorem Faces.current {item : Pattern} (h : t.Faces (item :: items)) :
    t.top.current = some item :=
  getElem?_of_drop_eq_cons h

theorem Faces.following {item : Pattern} (h : t.Faces (item :: items)) : t.following.Faces items :=
  drop_succ_of_drop_eq_cons h

theorem Faces.current_nil (h : t.Faces []) : t.top.current = none :=
  Frame.current_eq_none_iff.mpr (List.drop_eq_nil_iff.mp h)

theorem faces_enter (t : Thread) (mark : UInt64) (shape : Shape) (items : List Pattern) :
    (t.enter mark shape items 0).Faces items :=
  rfl

theorem faces_seed {root : Frame} (start pattern : Nat) (hindex : root.index = 0) :
    (seed start pattern root).Faces root.items := by
  rw [Faces, seed, hindex, List.drop_zero]

theorem mem_along_self (t : Thread) (items : List Pattern) : t ∈ along t items := by
  cases items with
  | nil => exact List.mem_singleton.mpr rfl
  | cons item items => exact .head _

/-- Every later item of the group is a place, and its end is. -/
theorem mem_along {k : Nat} (hk : k ≤ items.length) :
    { t with top := { t.top with index := t.top.index + k } } ∈ along t items := by
  induction items generalizing t k with
  | nil =>
    obtain rfl := Nat.le_zero.mp hk
    exact mem_along_self t []
  | cons item items ih =>
    cases k with
    | zero => exact mem_along_self t _
    | succ k =>
      have hlater := ih (t := t.following) (Nat.le_of_succ_le_succ hk)
      simp only [following, Nat.add_assoc, Nat.add_comm 1 k] at hlater
      exact .tail _ (List.mem_append_right _ hlater)

section Enter
variable {mark : UInt64} {shape : Shape} {inner : List Pattern} {k : Nat}

mutual

theorem enter_mem_inside (t : Thread) (item : Pattern) (hu : u ∈ inside t item)
    (hcur : u.top.current = some (.group mark shape inner)) (hk : k ≤ inner.length) :
    u.enter mark shape inner k ∈ inside t item := by
  cases item with
  | group mark' shape' items =>
    exact enter_mem_along _ items (faces_enter t mark' shape' items) hu hcur hk
  | _ => cases hu

theorem enter_mem_along (t : Thread) (items : List Pattern) (ht : t.Faces items)
    (hu : u ∈ along t items) (hcur : u.top.current = some (.group mark shape inner))
    (hk : k ≤ inner.length) : u.enter mark shape inner k ∈ along t items := by
  cases items with
  | nil =>
    obtain rfl := List.mem_singleton.mp hu
    cases ht.current_nil.symm.trans hcur
  | cons item items =>
    rcases List.mem_cons.mp hu with rfl | hu
    · cases ht.current.symm.trans hcur
      have henter := mem_along (t := u.enter mark shape inner 0) hk
      simp only [enter, Nat.zero_add] at henter
      exact .tail _ (List.mem_append_left _ henter)
    · rcases List.mem_append.mp hu with hu | hu
      · exact .tail _ (List.mem_append_left _ (enter_mem_inside t item hu hcur hk))
      · have hlater := enter_mem_along t.following items ht.following hu hcur hk
        exact .tail _ (List.mem_append_right _ hlater)

end

end Enter

section Listed
variable {roots : List Frame}

mutual

theorem placed_of_mem_inside (t : Thread) (item : Pattern) (ht : Search.Placed roots t)
    (hcur : t.top.current = some item) (hu : u ∈ inside t item) :
    Search.Placed roots u ∧ u.start = t.start ∧ u.records = t.records := by
  cases item with
  | group mark shape items =>
    obtain ⟨root, hroot, hwithin⟩ := ht
    have henter : Search.Placed roots (t.enter mark shape items 0) :=
      ⟨root, hroot, hcur, Nat.zero_le _, hwithin⟩
    exact placed_of_mem_along (t.enter mark shape items 0) items henter
      (faces_enter t mark shape items) hu
  | _ => cases hu

theorem placed_of_mem_along (t : Thread) (items : List Pattern) (ht : Search.Placed roots t)
    (hfaces : t.Faces items) (hu : u ∈ along t items) :
    Search.Placed roots u ∧ u.start = t.start ∧ u.records = t.records := by
  cases items with
  | nil =>
    obtain rfl := List.mem_singleton.mp hu
    exact ⟨ht, rfl, rfl⟩
  | cons item items =>
    rcases List.mem_cons.mp hu with rfl | hu
    · exact ⟨ht, rfl, rfl⟩
    · rcases List.mem_append.mp hu with hu | hu
      · exact placed_of_mem_inside t item ht hfaces.current hu
      · obtain ⟨root, hroot, hwithin⟩ := ht
        have hlater : Search.Placed roots t.following :=
          ⟨root, hroot, hwithin.reindex rfl (Frame.index_lt_of_current hfaces.current)⟩
        exact placed_of_mem_along t.following items hlater hfaces.following hu

end

end Listed

mutual

/-- Threads wait at an item and inside it in as many places as it has instructions that consume. -/
theorem countP_inside (t : Thread) (item : Pattern) :
    (inside t item).countP awaitsInput + (if item.isTest then 1 else 0) = item.tests := by
  cases item with
  | group mark shape items => exact countP_along _ items (faces_enter t mark shape items)
  | _ => rfl

theorem countP_along (t : Thread) (items : List Pattern) (ht : t.Faces items) :
    (along t items).countP awaitsInput = Pattern.testsAll items := by
  cases items with
  | nil =>
    have hself : t.awaitsInput = false := by rw [awaitsInput, ht.current_nil]; rfl
    rw [along, List.countP_singleton, hself]
    rfl
  | cons item items =>
    have hself : t.awaitsInput = item.isTest := by rw [awaitsInput, ht.current]; rfl
    have hitem := countP_inside t item
    have hlater := countP_along t.following items ht.following
    rw [along, List.countP_cons, List.countP_append, hself, Pattern.testsAll]
    omega

end

end Thread

/-- Every place that frames of a pattern make up is listed. -/
theorem Frame.Within.mem_along {root f : Frame} {outer : List Frame}
    (h : f.Within root.group outer) (hroot : root.index = 0) (start pattern : Nat) :
    ⟨start, pattern, f, outer, []⟩ ∈ Thread.along (.seed start pattern root) root.items := by
  induction outer generalizing f with
  | nil =>
    obtain ⟨hgroup, hle⟩ := h
    rw [(Pattern.group.inj hgroup).2.2] at hle
    have hmem := Thread.mem_along (t := .seed start pattern root) hle
    have htop : { root with index := root.index + f.index } = f := by
      refine eq_of_group_eq hgroup.symm ?_
      rw [hroot, Nat.zero_add]
    simp only [Thread.seed, htop] at hmem
    exact hmem
  | cons parent outer ih =>
    obtain ⟨hcur, hle, hparent⟩ := h
    exact Thread.enter_mem_along _ _ (Thread.faces_seed start pattern hroot) (ih hparent) hcur hle

namespace Search
variable {roots : List Frame} {starts : Nat} {t : Thread}

theorem map_top_seeds (roots : List Frame) (index : Nat) :
    (seeds roots index).map Thread.top = roots := by
  apply List.ext_getElem
  · simp [seeds]
  · intro i hi hi'
    simp [seeds, Thread.seed]

/-- The places in all patterns, of the attempts from as many offsets as there are starts. -/
def places (roots : List Frame) (starts : Nat) : List Thread :=
  (List.range starts).flatMap fun start =>
    (seeds roots start).flatMap fun t => t.along t.top.items

variable (hroots : Rooted roots)
include hroots

/-- What is listed are the places that threads of the patterns can stand in. -/
theorem mem_places_iff :
    t ∈ places roots starts ↔ Placed roots t ∧ t.start < starts ∧ t.records = [] := by
  constructor
  · intro ht
    obtain ⟨start, hstart, ht⟩ := List.mem_flatMap.mp ht
    obtain ⟨s, hs, ht⟩ := List.mem_flatMap.mp ht
    obtain ⟨pattern, root, hroot, rfl⟩ := mem_seeds.mp hs
    obtain ⟨-, hindex, -⟩ := hroots root (List.mem_of_getElem? hroot)
    obtain ⟨hplaced, heq, hrecords⟩ := Thread.placed_of_mem_along _ _ (placed_seed hroots hroot)
      (Thread.faces_seed start pattern hindex) ht
    exact ⟨hplaced, heq ▸ List.mem_range.mp hstart, hrecords⟩
  · rintro ⟨⟨root, hroot, hwithin⟩, hstart, hrecords⟩
    obtain ⟨-, hindex, -⟩ := hroots root (List.mem_of_getElem? hroot)
    have hseed : Thread.seed t.start t.pattern root ∈ seeds roots t.start :=
      mem_seeds.mpr ⟨t.pattern, root, hroot, rfl⟩
    have hmem := hwithin.mem_along hindex t.start t.pattern
    rw [← hrecords] at hmem
    exact List.mem_flatMap.mpr
      ⟨t.start, List.mem_range.mpr hstart, List.mem_flatMap.mpr ⟨_, hseed, hmem⟩⟩

/-- For each start, threads wait at as many places as the patterns have items that consume. -/
theorem countP_places (starts : Nat) :
    (places roots starts).countP Thread.awaitsInput =
      starts * (roots.map fun root => Pattern.testsAll root.items).sum := by
  have hstart : ∀ start, ((seeds roots start).flatMap fun t => t.along t.top.items).countP
      Thread.awaitsInput = (roots.map fun root => Pattern.testsAll root.items).sum := by
    intro start
    rw [List.countP_flatMap]
    have htop := congrArg (List.map fun root => Pattern.testsAll root.items)
      (map_top_seeds roots start)
    rw [← htop, List.map_map]
    refine congrArg List.sum (List.map_congr_left fun t ht => ?_)
    obtain ⟨pattern, root, hroot, rfl⟩ := mem_seeds.mp ht
    obtain ⟨-, hindex, -⟩ := hroots root (List.mem_of_getElem? hroot)
    exact Thread.countP_along _ _ (Thread.faces_seed start pattern hindex)
  have hstarts := List.map_congr_left fun start (_ : start ∈ List.range starts) => hstart start
  rw [places, List.countP_flatMap]
  refine (congrArg List.sum hstarts).trans ?_
  rw [List.map_const', List.sum_replicate_nat, List.length_range]

end Search
end Homoicon
