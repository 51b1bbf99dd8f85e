import Homoicon.Pattern.Search
import Homoicon.Proofs.Pattern.Span

/-! Derivations with the captures that they go through, and what is recorded of these. -/
namespace Homoicon

/-- One time that a derivation goes through a capture: where it enters it and where it leaves. -/
structure Passage where
  name : String
  inner : Blueprint
  start : Nat
  stop : Nat

namespace Passage

def last? (name : String) (passages : List Passage) : Option Passage :=
  (passages.filter (·.name = name)).getLast?

/-- What a search records of a passage that has come to its end. -/
def record (p : Passage) : Record := ⟨p.start, some p.stop, p.inner.isTest⟩

/-- A passage that lies between two offsets. -/
structure Inside (source : List Node) (i j : Nat) (p : Passage) : Prop where
  start_le : i ≤ p.start
  start_le_stop : p.start ≤ p.stop
  stop_le : p.stop ≤ j
  derives : p.inner.Derives source p.start p.stop

/-- What a passage binds its name to: the node that it takes where its capture asks for nothing but
one node, and else the nodes that it covers. -/
inductive Binds (source : List Node) (p : Passage) : Binding → Prop
  | one {node : Node} (htest : p.inner.isTest = true) (hnode : source[p.start]? = some node) :
      Binds source p (.one node)
  | many (htest : p.inner.isTest = false) :
      Binds source p (.many ((source.take p.stop).drop p.start))

variable {name : String} {p : Passage} {passages others : List Passage}

theorem last?_append :
    last? name (passages ++ others) = (last? name others).or (last? name passages) := by
  unfold last?
  rw [List.filter_append, List.getLast?_append]

theorem last?_cons_self (hp : p.name = name) (hothers : last? name passages = none) :
    last? name (p :: passages) = some p := by
  have hself : last? name [p] = some p := by simp [last?, hp]
  rw [← List.singleton_append, last?_append, hothers, hself]
  rfl

theorem last?_cons_of_ne (h : name ≠ p.name) :
    last? name (p :: passages) = last? name passages := by
  unfold last?
  rw [List.filter_cons_of_neg]
  simpa using h.symm

theorem last?_eq_none_iff : last? name passages = none ↔ ∀ p ∈ passages, p.name ≠ name := by
  unfold last?
  rw [List.getLast?_eq_none_iff, List.filter_eq_nil_iff]
  simp only [decide_eq_true_iff, ne_eq]

theorem Inside.mono {source : List Node} {i j k l : Nat} (h : p.Inside source i j) (hi : k ≤ i)
    (hj : j ≤ l) : p.Inside source k l :=
  { h with
    start_le := Nat.le_trans hi h.start_le
    stop_le := Nat.le_trans h.stop_le hj }

theorem mem_of_last? (h : last? name passages = some p) : p ∈ passages :=
  (List.mem_filter.mp (List.mem_of_getLast? h)).1

end Passage

namespace Blueprint

/-- One round of a repetition or more, with the passages of all in order. -/
inductive Rounds (round : Nat → Nat → List Passage → Prop) : Nat → Nat → List Passage → Prop
  | once {i j : Nat} {passages : List Passage} (h : round i j passages) : Rounds round i j passages
  | again {i k j : Nat} {passages others : List Passage} (h : round i k passages)
      (hrest : Rounds round k j others) : Rounds round i j (passages ++ others)

mutual

/-- A derivation of a pattern over the nodes from an offset up to another, with its passages in the
order in which it enters captures. -/
def Passes (source : List Node) : Blueprint → Nat → Nat → List Passage → Prop
  | sequence items => PassesAll source items
  | alternatives items => PassesAny source items
  | optional items _ => fun i j passages =>
    i = j ∧ passages = [] ∨ PassesAll source items i j passages
  | repeated items _ => Rounds (PassesAll source items)
  | anchor start => fun i j passages => (anchor start).Derives source i j ∧ passages = []
  | matchType kind => fun i j passages => (matchType kind).Derives source i j ∧ passages = []
  | matchValue target => fun i j passages => (matchValue target).Derives source i j ∧ passages = []
  | capture name inner => fun i j passages =>
    ∃ within, Passes source inner i j within ∧ passages = ⟨name, inner, i, j⟩ :: within

def PassesAll (source : List Node) : List Blueprint → Nat → Nat → List Passage → Prop
  | [] => fun i j passages => i = j ∧ passages = []
  | item :: items => fun i j passages => ∃ k before after, Passes source item i k before ∧
      PassesAll source items k j after ∧ passages = before ++ after

def PassesAny (source : List Node) : List Blueprint → Nat → Nat → List Passage → Prop
  | [] => fun _ _ _ => False
  | item :: items => fun i j passages =>
    Passes source item i j passages ∨ PassesAny source items i j passages

end

mutual

def names : Blueprint → List String
  | sequence items => namesAll items
  | alternatives items => namesAll items
  | optional items _ => namesAll items
  | repeated items _ => namesAll items
  | anchor _ => []
  | matchType _ => []
  | matchValue _ => []
  | capture name inner => name :: names inner

def namesAll : List Blueprint → List String
  | [] => []
  | item :: items => names item ++ namesAll items

end

mutual

/-- No capture in a pattern stands inside another one of its name. -/
def Unnested : Blueprint → Prop
  | sequence items => UnnestedAll items
  | alternatives items => UnnestedAll items
  | optional items _ => UnnestedAll items
  | repeated items _ => UnnestedAll items
  | anchor _ => True
  | matchType _ => True
  | matchValue _ => True
  | capture name inner => name ∉ names inner ∧ Unnested inner

def UnnestedAll : List Blueprint → Prop
  | [] => True
  | item :: items => Unnested item ∧ UnnestedAll items

end

variable {source : List Node} {i j : Nat} {passages : List Passage}

theorem Rounds.forall_mem {round : Nat → Nat → List Passage → Prop} {P : Passage → Prop}
    (hround : ∀ i j passages, round i j passages → ∀ p ∈ passages, P p)
    (h : Rounds round i j passages) : ∀ p ∈ passages, P p := by
  induction h with
  | once h => exact hround _ _ _ h
  | again h _ ih => exact List.forall_mem_append.mpr ⟨hround _ _ _ h, ih⟩

theorem Rounds.transGen {round : Nat → Nat → List Passage → Prop} {R : Nat → Nat → Prop}
    (hround : ∀ i j passages, round i j passages → R i j) (h : Rounds round i j passages) :
    Relation.TransGen R i j := by
  induction h with
  | once h => exact .single (hround _ _ _ h)
  | again h _ ih => exact .head (hround _ _ _ h) ih

mutual

theorem derives_of_passes (b : Blueprint) {i j : Nat} {passages : List Passage}
    (h : b.Passes source i j passages) : b.Derives source i j := by
  cases b with
  | sequence items => exact derivesAll_of_passes items h
  | alternatives items => exact derivesAny_of_passes items h
  | optional items greedy =>
    rcases h with ⟨rfl, -⟩ | h
    · exact .inl rfl
    · exact .inr (derivesAll_of_passes items h)
  | repeated items greedy => exact Rounds.transGen (fun _ _ _ h => derivesAll_of_passes items h) h
  | anchor start => exact h.1
  | matchType kind => exact h.1
  | matchValue target => exact h.1
  | capture name inner =>
    obtain ⟨within, hinner, -⟩ := h
    have hderives := derives_of_passes inner hinner
    exact hderives

theorem derivesAll_of_passes (bs : List Blueprint) {i j : Nat} {passages : List Passage}
    (h : PassesAll source bs i j passages) : DerivesAll source bs i j := by
  cases bs with
  | nil => exact h.1
  | cons b bs =>
    obtain ⟨k, before, after, hb, hbs, -⟩ := h
    exact ⟨k, derives_of_passes b hb, derivesAll_of_passes bs hbs⟩

theorem derivesAny_of_passes (bs : List Blueprint) {i j : Nat} {passages : List Passage}
    (h : PassesAny source bs i j passages) : DerivesAny source bs i j := by
  cases bs with
  | nil => exact h
  | cons b bs => exact h.imp (derives_of_passes b) (derivesAny_of_passes bs)

end

mutual

/-- The passages of a derivation lie in it. -/
theorem inside_of_passes (b : Blueprint) {i j : Nat} {passages : List Passage}
    (h : b.Passes source i j passages) (hi : i ≤ source.length) :
    ∀ p ∈ passages, p.Inside source i j := by
  cases b with
  | sequence items => exact inside_of_passesAll items h hi
  | alternatives items => exact inside_of_passesAny items h hi
  | optional items greedy =>
    rcases h with ⟨-, rfl⟩ | h
    · exact List.forall_mem_nil _
    · exact inside_of_passesAll items h hi
  | repeated items greedy =>
    replace h : Rounds (PassesAll source items) i j passages := h
    induction h with
    | once h => exact inside_of_passesAll items h hi
    | @again i k j passages others h hrest ih =>
      have hround := derivesAll_bounds items (derivesAll_of_passes items h) hi
      have hbounds := derives_bounds (repeated items greedy)
        (derives_of_passes (repeated items greedy) hrest) hround.2
      refine List.forall_mem_append.mpr ⟨fun p hp => ?_, fun p hp => ?_⟩
      · exact (inside_of_passesAll items h hi p hp).mono (Nat.le_refl _) hbounds.1
      · exact (ih hround.2 p hp).mono hround.1 (Nat.le_refl _)
  | anchor | matchType | matchValue =>
    rw [h.2]
    exact List.forall_mem_nil _
  | capture name inner =>
    obtain ⟨within, hinner, rfl⟩ := h
    have hderives := derives_of_passes inner hinner
    have hbounds := derives_bounds inner hderives hi
    exact List.forall_mem_cons.mpr ⟨⟨Nat.le_refl _, hbounds.1, Nat.le_refl _, hderives⟩,
      inside_of_passes inner hinner hi⟩

theorem inside_of_passesAll (bs : List Blueprint) {i j : Nat} {passages : List Passage}
    (h : PassesAll source bs i j passages) (hi : i ≤ source.length) :
    ∀ p ∈ passages, p.Inside source i j := by
  cases bs with
  | nil =>
    rw [h.2]
    exact List.forall_mem_nil _
  | cons b bs =>
    obtain ⟨k, before, after, hb, hbs, rfl⟩ := h
    have hfirst := derives_bounds b (derives_of_passes b hb) hi
    have hlater := derivesAll_bounds bs (derivesAll_of_passes bs hbs) hfirst.2
    refine List.forall_mem_append.mpr ⟨fun p hp => ?_, fun p hp => ?_⟩
    · exact (inside_of_passes b hb hi p hp).mono (Nat.le_refl _) hlater.1
    · exact (inside_of_passesAll bs hbs hfirst.2 p hp).mono hfirst.1 (Nat.le_refl _)

theorem inside_of_passesAny (bs : List Blueprint) {i j : Nat} {passages : List Passage}
    (h : PassesAny source bs i j passages) (hi : i ≤ source.length) :
    ∀ p ∈ passages, p.Inside source i j := by
  cases bs with
  | nil => exact h.elim
  | cons b bs =>
    rcases h with h | h
    · exact inside_of_passes b h hi
    · exact inside_of_passesAny bs h hi

end

mutual

theorem name_mem_of_passes (b : Blueprint) {i j : Nat} {passages : List Passage}
    (h : b.Passes source i j passages) : ∀ p ∈ passages, p.name ∈ b.names := by
  cases b with
  | sequence items => exact name_mem_of_passesAll items h
  | alternatives items => exact name_mem_of_passesAny items h
  | optional items greedy =>
    rcases h with ⟨-, rfl⟩ | h
    · exact List.forall_mem_nil _
    · exact name_mem_of_passesAll items h
  | repeated items greedy =>
    exact Rounds.forall_mem (fun _ _ _ h => name_mem_of_passesAll items h) h
  | anchor | matchType | matchValue =>
    rw [h.2]
    exact List.forall_mem_nil _
  | capture name inner =>
    obtain ⟨within, hinner, rfl⟩ := h
    exact List.forall_mem_cons.mpr
      ⟨.head _, fun p hp => .tail _ (name_mem_of_passes inner hinner p hp)⟩

theorem name_mem_of_passesAll (bs : List Blueprint) {i j : Nat} {passages : List Passage}
    (h : PassesAll source bs i j passages) : ∀ p ∈ passages, p.name ∈ namesAll bs := by
  cases bs with
  | nil =>
    rw [h.2]
    exact List.forall_mem_nil _
  | cons b bs =>
    obtain ⟨k, before, after, hb, hbs, rfl⟩ := h
    exact List.forall_mem_append.mpr
      ⟨fun p hp => List.mem_append_left _ (name_mem_of_passes b hb p hp),
        fun p hp => List.mem_append_right _ (name_mem_of_passesAll bs hbs p hp)⟩

theorem name_mem_of_passesAny (bs : List Blueprint) {i j : Nat} {passages : List Passage}
    (h : PassesAny source bs i j passages) : ∀ p ∈ passages, p.name ∈ namesAll bs := by
  cases bs with
  | nil => exact h.elim
  | cons b bs =>
    rcases h with h | h
    · exact fun p hp => List.mem_append_left _ (name_mem_of_passes b h p hp)
    · exact fun p hp => List.mem_append_right _ (name_mem_of_passesAny bs h p hp)

end

end Blueprint

/-- Records after passages: of each name the last passage, and what was recorded before of the names
that have none. -/
def Recorded (passages : List Passage) (records later : Records) : Prop :=
  ∀ name, later.lookup name =
    ((Passage.last? name passages).map Passage.record).or (records.lookup name)

namespace Recorded
variable {passages others : List Passage} {records later final : Records}

theorem refl (records : Records) : Recorded [] records records := fun _ => rfl

theorem trans (h : Recorded passages records later) (hlater : Recorded others later final) :
    Recorded (passages ++ others) records final := by
  intro name
  rw [hlater name, h name, Passage.last?_append, Option.map_or, Option.or_assoc]

/-- A capture that holds none of its name is recorded as it is left. -/
theorem capture {name : String} {inner : Blueprint} {i j : Nat}
    (hname : ∀ p ∈ passages, p.name ≠ name)
    (h : Recorded passages (records.enter name ⟨i, none, inner.isTest⟩) later) :
    Recorded (⟨name, inner, i, j⟩ :: passages) records (later.leave name j) := by
  have hnone := Passage.last?_eq_none_iff.mpr hname
  intro other
  by_cases hother : other = name
  · subst hother
    have hlast : Passage.last? other (⟨other, inner, i, j⟩ :: passages) =
        some ⟨other, inner, i, j⟩ :=
      Passage.last?_cons_self rfl hnone
    rw [Records.lookup_leave, h, hnone, hlast]
    simp [Passage.record]
  · rw [Records.lookup_leave_of_ne _ _ hother, h, Records.lookup_enter_of_ne _ _ hother,
      Passage.last?_cons_of_ne hother]

end Recorded

namespace Blueprint
open Pattern (ofNode ofNodes)
open Relation (TransGen)

variable {source : List Node} {marks : Nat → UInt64}

/-- Rounds that are taken one after the other are recorded one after the other. -/
theorem exists_rounds {R : Progress → Progress → Prop}
    {round : Nat → Nat → List Passage → Prop} {s s' : Progress}
    (hround : ∀ s s', R s s' → ∃ passages, round s.offset s'.offset passages ∧
      Recorded passages s.records s'.records) (h : TransGen R s s') :
    ∃ passages, Rounds round s.offset s'.offset passages ∧
      Recorded passages s.records s'.records := by
  induction h using TransGen.head_induction_on with
  | single h =>
    obtain ⟨passages, hpasses, hrecorded⟩ := hround _ _ h
    exact ⟨passages, .once hpasses, hrecorded⟩
  | head h _ ih =>
    obtain ⟨passages, hpasses, hrecorded⟩ := hround _ _ h
    obtain ⟨others, hothers, hlater⟩ := ih
    exact ⟨passages ++ others, .again hpasses hothers, hrecorded.trans hlater⟩

mutual

/-- What the reading of a built pattern takes, a derivation passes through, and its last passages
are recorded. -/
theorem passes_of_takes (b : Blueprint) (serial : Nat) (hb : b.Unnested) {s s' : Progress}
    (h : (ofNode marks serial b.node).Takes source s s') :
    ∃ passages, b.Passes source s.offset s'.offset passages ∧
      Recorded passages s.records s'.records := by
  cases b with
  | sequence items => exact passesAll_of_takes items _ hb h
  | alternatives items => exact passesAny_of_takes items _ hb h
  | optional items greedy =>
    rcases h with rfl | h
    · exact ⟨[], .inl ⟨rfl, rfl⟩, .refl _⟩
    · obtain ⟨passages, hpasses, hrecorded⟩ := passesAll_of_takes items _ hb h
      exact ⟨passages, .inr hpasses, hrecorded⟩
  | repeated items greedy =>
    rw [ofNode_repeated] at h
    exact exists_rounds (fun _ _ h => passesAll_of_takes items _ hb h) h
  | anchor start =>
    have hderives := derives_of_takes (anchor start) serial h
    obtain ⟨rfl, -⟩ := h
    exact ⟨[], ⟨hderives, rfl⟩, .refl _⟩
  | matchType kind =>
    have hderives := derives_of_takes (matchType kind) serial h
    rw [ofNode_matchType] at h
    obtain ⟨node, -, -, rfl⟩ := h
    exact ⟨[], ⟨hderives, rfl⟩, .refl _⟩
  | matchValue target =>
    have hderives := derives_of_takes (matchValue target) serial h
    obtain ⟨node, -, -, rfl⟩ := h
    exact ⟨[], ⟨hderives, rfl⟩, .refl _⟩
  | capture name inner =>
    rw [ofNode_capture] at h
    obtain ⟨m, h, rfl⟩ := h
    obtain ⟨within, hwithin, hrecorded⟩ :=
      passes_of_takes inner _ hb.2 (Pattern.takesAll_singleton.mp h)
    have hname : ∀ p ∈ within, p.name ≠ name := fun p hp heq =>
      hb.1 (heq ▸ name_mem_of_passes inner hwithin p hp)
    have hsingle : Pattern.isSingle [ofNode marks (serial + 2) inner.node] = inner.isTest :=
      isTest_ofNode inner marks _
    rw [hsingle] at hwithin hrecorded
    exact ⟨_, ⟨within, hwithin, rfl⟩, hrecorded.capture hname⟩

theorem passesAll_of_takes (bs : List Blueprint) (serial : Nat) (hbs : UnnestedAll bs)
    {s s' : Progress} (h : Pattern.TakesAll source (ofNodes marks serial (nodes bs)) s s') :
    ∃ passages, PassesAll source bs s.offset s'.offset passages ∧
      Recorded passages s.records s'.records := by
  cases bs with
  | nil =>
    obtain rfl : s = s' := h
    exact ⟨[], ⟨rfl, rfl⟩, .refl _⟩
  | cons b bs =>
    obtain ⟨m, hfirst, hrest⟩ := h
    obtain ⟨before, hbefore, hrecorded⟩ := passes_of_takes b _ hbs.1 hfirst
    obtain ⟨after, hafter, hlater⟩ := passesAll_of_takes bs _ hbs.2 hrest
    exact ⟨before ++ after, ⟨m.offset, before, after, hbefore, hafter, rfl⟩,
      hrecorded.trans hlater⟩

theorem passesAny_of_takes (bs : List Blueprint) (serial : Nat) (hbs : UnnestedAll bs)
    {s s' : Progress} (h : Pattern.TakesAny source (ofNodes marks serial (nodes bs)) s s') :
    ∃ passages, PassesAny source bs s.offset s'.offset passages ∧
      Recorded passages s.records s'.records := by
  cases bs with
  | nil => exact h.elim
  | cons b bs =>
    rcases h with h | h
    · obtain ⟨passages, hpasses, hrecorded⟩ := passes_of_takes b _ hbs.1 h
      exact ⟨passages, .inl hpasses, hrecorded⟩
    · obtain ⟨passages, hpasses, hrecorded⟩ := passesAny_of_takes bs _ hbs.2 h
      exact ⟨passages, .inr hpasses, hrecorded⟩

end

end Blueprint
end Homoicon
