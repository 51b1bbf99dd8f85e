import Homoicon.Pattern.Search
import Homoicon.Proofs.Pattern.Takes

/-! Single steps of a thread, and the frames that it can stand in. -/
namespace Homoicon
open Relation (ReflTransGen)

section Drop
variable {α : Type} {as rest : List α} {a : α} {k : Nat}

theorem getElem?_of_drop_eq_cons (h : as.drop k = a :: rest) : as[k]? = some a := by
  rw [← List.head?_drop, h, List.head?_cons]

theorem drop_succ_of_drop_eq_cons (h : as.drop k = a :: rest) : as.drop (k + 1) = rest := by
  rw [← List.tail_drop, h, List.tail_cons]

end Drop

namespace Frame

def group (f : Frame) : Pattern := .group f.mark f.shape f.items

/-- A frame runs the current item of the frame around it, and so on up to one that runs `root`. -/
def Within (root : Pattern) (f : Frame) : List Frame → Prop
  | [] => f.group = root ∧ f.index ≤ f.items.length
  | parent :: outer =>
    parent.current = some f.group ∧ f.index ≤ f.items.length ∧ parent.Within root outer

variable {root : Pattern} {f : Frame} {outer : List Frame}

theorem eq_of_group_eq {g : Frame} (hgroup : f.group = g.group) (hindex : f.index = g.index) :
    f = g := by
  cases f
  cases g
  obtain ⟨rfl, rfl, rfl⟩ := Pattern.group.inj hgroup
  obtain rfl := hindex
  rfl

@[simp] theorem group_advance (f : Frame) : f.advance.group = f.group := by
  unfold advance
  split <;> rfl

theorem advance_of_choice (h : f.shape = .choice) :
    f.advance = { f with index := f.items.length } := by
  unfold advance
  rw [h]

theorem advance_of_ne_choice (h : f.shape ≠ .choice) :
    f.advance = { f with index := f.index + 1 } := by
  unfold advance
  split
  · next hs => exact absurd hs h
  · rfl

theorem index_lt_of_current {p : Pattern} (h : f.current = some p) : f.index < f.items.length :=
  (List.getElem?_eq_some_iff.mp h).1

theorem current_eq_none_iff : f.current = none ↔ f.items.length ≤ f.index :=
  List.getElem?_eq_none_iff

theorem drop_index_of_current {p : Pattern} (h : f.current = some p) :
    f.items.drop f.index = p :: f.items.drop (f.index + 1) := by
  obtain ⟨hlt, rfl⟩ := List.getElem?_eq_some_iff.mp h
  exact List.drop_eq_getElem_cons hlt

theorem drop_index_of_end (h : f.current = none) : f.items.drop f.index = [] :=
  List.drop_eq_nil_iff.mpr (current_eq_none_iff.mp h)

theorem advance_index_le {p : Pattern} (h : f.current = some p) :
    f.advance.index ≤ f.advance.items.length := by
  have hlt := index_lt_of_current h
  unfold advance
  split
  · exact Nat.le_refl _
  · exact hlt

theorem Within.index_le (h : f.Within root outer) : f.index ≤ f.items.length := by
  cases outer with
  | nil => exact h.2
  | cons parent outer => exact h.2.1

theorem Within.reindex {g : Frame} (h : f.Within root outer) (hg : g.group = f.group)
    (hi : g.index ≤ g.items.length) : g.Within root outer := by
  cases outer with
  | nil => exact ⟨hg.trans h.1, hi⟩
  | cons parent outer => exact ⟨hg ▸ h.1, hi, h.2.2⟩

theorem Within.advance {p : Pattern} (h : f.Within root outer) (hp : f.current = some p) :
    f.advance.Within root outer :=
  h.reindex (group_advance f) (advance_index_le hp)

/-- What holds of a group and of all items in it, holds of every group that a thread stands in. -/
theorem Within.inherit {P : Pattern → Prop}
    (hP : ∀ mark shape items, P (.group mark shape items) → ∀ item ∈ items, P item)
    (h : f.Within root outer) (hroot : P root) : P f.group := by
  induction outer generalizing f with
  | nil => exact h.1 ▸ hroot
  | cons parent outer ih => exact hP _ _ _ (ih h.2.2) _ (List.mem_of_getElem? h.1)

end Frame

def Shape.onEntry (items : List Pattern) (index : Nat) (records : Records) : Shape → Records
  | capture name => records.enter name ⟨index, none, Pattern.isSingle items⟩
  | _ => records

def Shape.onExit (index : Nat) (records : Records) : Shape → Records
  | capture name => records.leave name index
  | _ => records

namespace Thread

/-- A thread without its records: its frames, where it began and its pattern. -/
def place (t : Thread) : Thread := { t with records := [] }

@[simp] theorem digest_place (t : Thread) : t.place.digest = t.digest := rfl

@[simp] theorem awaitsInput_place (t : Thread) : t.place.awaitsInput = t.awaitsInput := rfl

/-- What a thread can become at an offset without consuming. -/
inductive Follows (index : Nat) (atEnd : Bool) (t : Thread) : Thread → Prop
  | skip {mark : UInt64} {greedy : Bool} {items : List Pattern}
      (h : t.top.current = some (.group mark (.optional greedy) items)) :
      Follows index atEnd t t.pass
  | anchor {start : Bool} (h : t.top.current = some (.anchor start))
      (hs : (if start then index == 0 else atEnd) = true) : Follows index atEnd t t.pass
  | enter {mark : UInt64} {shape : Shape} {items : List Pattern} {k : Nat}
      (h : t.top.current = some (.group mark shape items))
      (hk : shape ≠ .choice ∧ k = 0 ∨ shape = .choice ∧ k < items.length) :
      Follows index atEnd t
        { t.enter mark shape items k with records := shape.onEntry items index t.records }
  | leave {parent : Frame} {outer : List Frame} (h : t.top.current = none)
      (ho : t.outer = parent :: outer) :
      Follows index atEnd t
        { t.leave parent outer with records := t.top.shape.onExit index t.records }
  | restart {greedy : Bool} (h : t.top.current = none) (ho : t.outer ≠ [])
      (hs : t.top.shape = .repetition greedy) : Follows index atEnd t t.restart

variable {t u : Thread} {index : Nat} {atEnd : Bool} {next : List Thread}

theorem awaitsInput_iff :
    t.awaitsInput = true ↔ ∃ condition, t.top.current = some (.test condition) := by
  unfold awaitsInput
  cases h : t.top.current with
  | none => simp
  | some p => cases p <;> simp [Pattern.isTest]

theorem follows_of_mem_exits (hcur : t.top.current = none) (h : t.exits index = .threads next)
    (hu : u ∈ next) : t.Follows index atEnd u := by
  unfold exits at h
  cases ho : t.outer with
  | nil => simp [ho] at h
  | cons parent outer =>
    have hleave := @Follows.leave index atEnd t parent outer hcur ho
    simp only [ho] at h
    cases hs : t.top.shape with
    | repetition greedy =>
      have hrestart := @Follows.restart index atEnd t greedy hcur (by simp [ho]) hs
      simp only [hs, Move.threads.injEq] at h
      rw [hs] at hleave
      subst h
      cases greedy <;> simp at hu <;> rcases hu with rfl | rfl <;> assumption
    | _ =>
      simp only [hs, Move.threads.injEq] at h
      rw [hs] at hleave
      subst h
      rw [List.mem_singleton.mp hu]
      exact hleave

theorem follows_of_mem_entries {mark : UInt64} {shape : Shape} {items : List Pattern}
    (hcur : t.top.current = some (.group mark shape items))
    (hu : u ∈ t.entries mark shape items index) : t.Follows index atEnd u := by
  cases shape with
  | choice =>
    obtain ⟨k, hk, rfl⟩ := List.mem_map.mp hu
    exact .enter hcur (.inr ⟨rfl, List.mem_range.mp hk⟩)
  | optional greedy =>
    have hskip := @Follows.skip index atEnd t _ _ _ hcur
    have henter := @Follows.enter index atEnd t _ _ _ 0 hcur (.inl ⟨Shape.noConfusion, rfl⟩)
    cases greedy <;> simp [entries] at hu <;> rcases hu with rfl | rfl <;> assumption
  | _ =>
    rw [List.mem_singleton.mp hu]
    exact .enter hcur (.inl ⟨Shape.noConfusion, rfl⟩)

/-- The successors of a thread are those that `Follows` lists. -/
theorem follows_of_mem_move (hw : t.awaitsInput = false)
    (h : t.move index atEnd = .ok (.threads next)) (hu : u ∈ next) :
    t.Follows index atEnd u := by
  unfold move at h
  split at h
  · next hcur => exact follows_of_mem_exits hcur (Except.ok.inj h) hu
  · next hcur =>
    obtain rfl := Move.threads.inj (Except.ok.inj h)
    exact follows_of_mem_entries hcur hu
  · next hcur =>
    obtain rfl := Move.threads.inj (Except.ok.inj h)
    obtain ⟨hs, hu⟩ := List.mem_ite_nil_right.mp hu
    rw [List.mem_singleton.mp hu]
    exact .anchor hcur hs
  · next hcur => simp [awaitsInput_iff.mpr ⟨_, hcur⟩] at hw
  · simp at h

theorem Follows.awaitsInput_eq (h : t.Follows index atEnd u) : t.awaitsInput = false := by
  unfold awaitsInput
  cases h <;> simp_all [Pattern.isTest]

theorem Follows.mem_move (h : t.Follows index atEnd u) :
    ∃ next, t.move index atEnd = .ok (.threads next) ∧ u ∈ next := by
  unfold move
  cases h with
  | @skip mark greedy items h =>
    rw [h]
    cases greedy <;> exact ⟨_, rfl, by simp [entries]⟩
  | anchor h hs =>
    rw [h]
    exact ⟨_, rfl, by simp [hs]⟩
  | @enter mark shape items k h hk =>
    rw [h]
    refine ⟨_, rfl, ?_⟩
    rcases hk with ⟨hne, rfl⟩ | ⟨rfl, hk⟩
    · cases shape with
      | choice => exact absurd rfl hne
      | optional greedy =>
        cases greedy with
        | false => exact .tail _ (.head _)
        | true => exact .head _
      | _ => exact List.mem_singleton.mpr rfl
    · exact List.mem_map.mpr ⟨k, List.mem_range.mpr hk, rfl⟩
  | leave h ho =>
    rw [h]
    unfold exits
    rw [ho]
    cases hs : t.top.shape with
    | repetition greedy =>
      cases greedy with
      | false => exact ⟨_, rfl, .head _⟩
      | true => exact ⟨_, rfl, .tail _ (.head _)⟩
    | _ => exact ⟨_, rfl, List.mem_singleton.mpr rfl⟩
  | @restart greedy h ho hs =>
    obtain ⟨parent, outer, ho⟩ := List.exists_cons_of_ne_nil ho
    rw [h]
    unfold exits
    rw [ho, hs]
    cases greedy <;> exact ⟨_, rfl, by simp⟩

theorem consume_eq_some {input : Node} (h : t.consume input = .ok (some u)) :
    ∃ condition, t.top.current = some (.test condition) ∧ condition.passes input = .ok true ∧
      u = t.pass := by
  unfold consume at h
  split at h
  · next condition hcur =>
    cases hp : condition.passes input with
    | error fault => simp [hp, Except.map] at h
    | ok passed =>
      cases passed <;> simp [hp, Except.map] at h
      exact ⟨condition, hcur, hp, h.symm⟩
  · simp at h

namespace Follows
variable {root : Pattern}

theorem start_eq (h : t.Follows index atEnd u) : u.start = t.start := by cases h <;> rfl

theorem pattern_eq (h : t.Follows index atEnd u) : u.pattern = t.pattern := by cases h <;> rfl

theorem within (h : t.Follows index atEnd u) (ht : t.top.Within root t.outer) :
    u.top.Within root u.outer := by
  cases h with
  | skip h => exact ht.advance h
  | anchor h hs => exact ht.advance h
  | enter h hk =>
    refine ⟨h, ?_, ht⟩
    rcases hk with ⟨-, rfl⟩ | ⟨-, hk⟩
    · exact Nat.zero_le _
    · exact Nat.le_of_lt hk
  | leave h ho =>
    rw [ho] at ht
    exact ht.2.2.advance ht.1
  | restart h ho hs => exact ht.reindex rfl (Nat.zero_le _)

end Follows

theorem within_of_consume {root : Pattern} {input : Node} (ht : t.top.Within root t.outer)
    (h : t.consume input = .ok (some u)) : u.top.Within root u.outer := by
  obtain ⟨condition, hcur, -, rfl⟩ := consume_eq_some h
  exact ht.advance hcur

end Thread

namespace Thread
variable {t u v : Thread} {index : Nat} {atEnd : Bool}

def Done (t : Thread) : Prop := t.top.current = none ∧ t.outer = []

theorem move_eq_matched_iff : t.move index atEnd = .ok .matched ↔ t.Done := by
  unfold move Done
  cases hcur : t.top.current with
  | none =>
    cases ho : t.outer with
    | nil => simp [exits, ho]
    | cons parent outer => cases hs : t.top.shape <;> simp [exits, ho, hs]
  | some p => cases p <;> simp

theorem Done.awaitsInput_eq (h : t.Done) : t.awaitsInput = false := by
  simp [awaitsInput, h.1]

theorem place_eq_iff :
    u.place = t.place ↔
      u.start = t.start ∧ u.pattern = t.pattern ∧ u.top = t.top ∧ u.outer = t.outer := by
  simp [place]

theorem eq_of_place_eq (h : u.place = t.place) : u = { t with records := u.records } := by
  cases t
  cases u
  simp only [place, mk.injEq, and_true] at h
  obtain ⟨rfl, rfl, rfl, rfl⟩ := h
  rfl

theorem done_of_place_eq (h : u.place = t.place) (ht : t.Done) : u.Done := by
  rw [eq_of_place_eq h]
  exact ht

theorem Follows.of_place_eq (h : t.Follows index atEnd u) (hv : v.place = t.place) :
    ∃ w, v.Follows index atEnd w ∧ w.place = u.place := by
  rw [eq_of_place_eq hv]
  cases h with
  | skip h => exact ⟨_, .skip h, rfl⟩
  | anchor h hs => exact ⟨_, .anchor h hs, rfl⟩
  | enter h hk => exact ⟨_, .enter h hk, rfl⟩
  | leave h ho => exact ⟨_, .leave h ho, rfl⟩
  | restart h ho hs => exact ⟨_, .restart h ho hs, rfl⟩

theorem consume_of_place_eq {input : Node} (h : t.consume input = .ok (some u))
    (hv : v.place = t.place) : ∃ w, v.consume input = .ok (some w) ∧ w.place = u.place := by
  obtain ⟨condition, hcur, hpass, rfl⟩ := consume_eq_some h
  rw [eq_of_place_eq hv]
  refine ⟨{ t.pass with records := v.records }, ?_, rfl⟩
  simp [consume, hcur, hpass, Except.map, pass]

/-- One step over a source: threads that wait consume the node at their offset, the others move. -/
inductive Step (source : List Node) : Nat × Thread → Nat × Thread → Prop
  | move {i : Nat} {t u : Thread} (h : t.Follows i (i == source.length) u) :
      Step source (i, t) (i, u)
  | consume {i : Nat} {t u : Thread} {input : Node} (hi : source[i]? = some input)
      (h : t.consume input = .ok (some u)) : Step source (i, t) (i + 1, u)

namespace Step
variable {source : List Node} {p q : Nat × Thread}

theorem start_eq (h : Step source p q) : q.2.start = p.2.start := by
  cases h with
  | move h => exact h.start_eq
  | consume hi h =>
    obtain ⟨-, -, -, rfl⟩ := consume_eq_some h
    rfl

theorem pattern_eq (h : Step source p q) : q.2.pattern = p.2.pattern := by
  cases h with
  | move h => exact h.pattern_eq
  | consume hi h =>
    obtain ⟨-, -, -, rfl⟩ := consume_eq_some h
    rfl

theorem offset_le (h : Step source p q) (hp : p.1 ≤ source.length) : q.1 ≤ source.length := by
  cases h with
  | move => exact hp
  | consume hi => exact (List.getElem?_eq_some_iff.mp hi).1

end Step

end Thread

namespace Search
open Thread (Step)

/-- A thread that some attempt comes to at an offset. Merging threads leaves some of them out, but
none whose place is not kept by another. -/
def Reached (source : List Node) (roots : List Frame) (i : Nat) (t : Thread) : Prop :=
  ∃ start pattern root, start < source.length ∧ roots[pattern]? = some root ∧
    ReflTransGen (Step source) (start, .seed start pattern root) (i, t)

/-- No two places that attempts come to share their word. -/
def Distinct (source : List Node) (roots : List Frame) : Prop :=
  ∀ ⦃i t j u⦄, Reached source roots i t → Reached source roots j u → t.digest = u.digest →
    t.place = u.place

variable {source : List Node} {roots : List Frame} {i j : Nat} {t u : Thread}

theorem reached_seed {start pattern : Nat} {root : Frame} (hs : start < source.length)
    (hr : roots[pattern]? = some root) :
    Reached source roots start (.seed start pattern root) :=
  ⟨start, pattern, root, hs, hr, .refl⟩

theorem Reached.step (h : Reached source roots i t) (hstep : Step source (i, t) (j, u)) :
    Reached source roots j u := by
  obtain ⟨start, pattern, root, hs, hr, hpath⟩ := h
  exact ⟨start, pattern, root, hs, hr, hpath.tail hstep⟩

/-- What fresh attempts have and every step keeps, all threads that attempts come to have. -/
theorem Reached.induct {P : Nat → Thread → Prop} (h : Reached source roots i t)
    (hseed : ∀ start pattern root, start < source.length → roots[pattern]? = some root →
      P start (.seed start pattern root))
    (hstep : ∀ i t j u, P i t → Step source (i, t) (j, u) → P j u) : P i t := by
  obtain ⟨start, pattern, root, hs, hroot, hpath⟩ := h
  have hall : ∀ q, ReflTransGen (Step source) (start, .seed start pattern root) q → P q.1 q.2 := by
    intro q hq
    induction hq with
    | refl => exact hseed start pattern root hs hroot
    | tail _ h ih => exact hstep _ _ _ _ ih h
  exact hall _ hpath

theorem Reached.offset_le (h : Reached source roots i t) : i ≤ source.length :=
  h.induct (fun _ _ _ hs _ => Nat.le_of_lt hs) fun _ _ _ _ ih hstep => hstep.offset_le ih

/-- The attempt that a thread belongs to is the one that it names. -/
theorem Reached.path (h : Reached source roots i t) :
    t.start < source.length ∧ ∃ root, roots[t.pattern]? = some root ∧
      ReflTransGen (Step source) (t.start, .seed t.start t.pattern root) (i, t) := by
  refine h.induct (P := fun i t => t.start < source.length ∧ ∃ root, roots[t.pattern]? = some root ∧
    ReflTransGen (Step source) (t.start, .seed t.start t.pattern root) (i, t))
    (fun start pattern root hs hroot => ⟨hs, root, hroot, .refl⟩) fun i t j u ih hstep => ?_
  have hstart := hstep.start_eq
  have hpattern := hstep.pattern_eq
  dsimp only at hstart hpattern
  obtain ⟨hs, root, hroot, hpath⟩ := ih
  rw [hstart, hpattern]
  exact ⟨hs, root, hroot, hpath.tail hstep⟩

end Search
end Homoicon
