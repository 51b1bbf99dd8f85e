import Homoicon.Pattern.Thread
import Homoicon.Proofs.Pattern.Blueprint

/-! What patterns take of a source and what their captures record on the way. -/
namespace Homoicon

/-- A point of a source that a derivation has come to, and the records made before it. -/
structure Progress where
  offset : Nat
  records : Records

namespace Progress

def past (s : Progress) : Progress := { s with offset := s.offset + 1 }

def opened (s : Progress) (name : String) (single : Bool) : Progress :=
  { s with records := s.records.enter name ⟨s.offset, none, single⟩ }

def closed (s : Progress) (name : String) : Progress :=
  { s with records := s.records.leave name s.offset }

end Progress

namespace Pattern
open Relation (TransGen)

def isSingle : List Pattern → Bool
  | [item] => item.isTest
  | _ => false

mutual

/-- A pattern takes the nodes between two points and records what its captures cover. -/
def Takes (source : List Node) : Pattern → Progress → Progress → Prop
  | group _ shape items =>
    match shape with
    | .sequence => TakesAll source items
    | .choice => TakesAny source items
    | .optional _ => fun s s' => s = s' ∨ TakesAll source items s s'
    | .repetition _ => TransGen (TakesAll source items)
    | .capture name => fun s s' =>
      ∃ m, TakesAll source items (s.opened name (isSingle items)) m ∧ s' = m.closed name
  | anchor start => fun s s' => s = s' ∧ s.offset = if start then 0 else source.length
  | .test condition => fun s s' =>
    ∃ node, source[s.offset]? = some node ∧ condition.passes node = .ok true ∧ s' = s.past
  | faulty _ => fun _ _ => False

def TakesAll (source : List Node) : List Pattern → Progress → Progress → Prop
  | [] => fun s s' => s = s'
  | item :: items => fun s s' => ∃ m, Takes source item s m ∧ TakesAll source items m s'

def TakesAny (source : List Node) : List Pattern → Progress → Progress → Prop
  | [] => fun _ _ => False
  | item :: items => fun s s' => Takes source item s s' ∨ TakesAny source items s s'

end

variable {source : List Node}

theorem takesAny_iff {items : List Pattern} {s s' : Progress} :
    TakesAny source items s s' ↔ ∃ item ∈ items, Takes source item s s' := by
  induction items with
  | nil => simp [TakesAny]
  | cons item items ih => simp [TakesAny, ih]

theorem takesAll_singleton {item : Pattern} {s s' : Progress} :
    TakesAll source [item] s s' ↔ Takes source item s s' := by
  simp [TakesAll]

end Pattern

namespace Blueprint
open Pattern (ofNode ofNodes)
open Relation (TransGen)

variable {source : List Node} {marks : Nat → UInt64}

theorem ofNode_repeated (serial : Nat) (items : List Blueprint) (greedy : Bool) :
    ofNode marks serial (repeated items greedy).node =
      .group ((repeated items greedy).node.hash.getD (marks serial)) (.repetition greedy)
        (ofNodes marks (serial + 1) (nodes items)) := rfl

theorem ofNode_matchType (serial : Nat) (kind : Kind) :
    ofNode marks serial (matchType kind).node = .test (.ofKind (some kind)) := rfl

theorem ofNode_capture (serial : Nat) (name : String) (inner : Blueprint) :
    ofNode marks serial (capture name inner).node =
      .group ((capture name inner).node.hash.getD (marks serial)) (.capture name)
        [ofNode marks (serial + 2) inner.node] := rfl

mutual

/-- What the reading of a built pattern takes, the pattern derives. -/
theorem derives_of_takes (b : Blueprint) (serial : Nat) {s s' : Progress}
    (h : (ofNode marks serial b.node).Takes source s s') :
    b.Derives source s.offset s'.offset := by
  cases b with
  | sequence items => exact derivesAll_of_takes items _ h
  | alternatives items => exact derivesAny_of_takes items _ h
  | optional items greedy =>
    rcases h with rfl | h
    · exact .inl rfl
    · exact .inr (derivesAll_of_takes items _ h)
  | repeated items greedy =>
    rw [ofNode_repeated] at h
    replace h : TransGen (Pattern.TakesAll source _) s s' := h
    exact h.lift Progress.offset fun _ _ h => derivesAll_of_takes items _ h
  | anchor start =>
    obtain ⟨rfl, h⟩ := h
    exact ⟨rfl, h⟩
  | matchType kind =>
    rw [ofNode_matchType] at h
    obtain ⟨node, hnode, hpass, rfl⟩ := h
    simp only [Test.passes, Except.ok.injEq, beq_iff_eq, Option.some.injEq] at hpass
    exact ⟨rfl, node, hnode, hpass.symm⟩
  | matchValue target =>
    obtain ⟨node, hnode, hpass, rfl⟩ := h
    simp only [Test.passes, Except.ok.injEq, Bool.and_eq_true, beq_iff_eq] at hpass
    obtain ⟨⟨hkind, hsome⟩, hhash⟩ := hpass
    obtain ⟨word, hword⟩ := Option.isSome_iff_exists.mp hsome
    exact ⟨rfl, node, hnode, hkind, word, hword, hhash ▸ hword⟩
  | capture name inner =>
    rw [ofNode_capture] at h
    obtain ⟨m, h, rfl⟩ := h
    have hinner := derives_of_takes inner _ (Pattern.takesAll_singleton.mp h)
    exact hinner

theorem derivesAll_of_takes (bs : List Blueprint) (serial : Nat) {s s' : Progress}
    (h : Pattern.TakesAll source (ofNodes marks serial (nodes bs)) s s') :
    DerivesAll source bs s.offset s'.offset := by
  cases bs with
  | nil => exact congrArg Progress.offset h
  | cons b bs =>
    obtain ⟨m, hb, hbs⟩ := h
    exact ⟨m.offset, derives_of_takes b _ hb, derivesAll_of_takes bs _ hbs⟩

theorem derivesAny_of_takes (bs : List Blueprint) (serial : Nat) {s s' : Progress}
    (h : Pattern.TakesAny source (ofNodes marks serial (nodes bs)) s s') :
    DerivesAny source bs s.offset s'.offset := by
  cases bs with
  | nil => exact h
  | cons b bs =>
    rcases h with h | h
    · exact .inl (derives_of_takes b _ h)
    · exact .inr (derivesAny_of_takes bs _ h)

end

mutual

/-- What a built pattern derives, its reading takes, whatever has been recorded before. -/
theorem takes_of_derives (b : Blueprint) (serial : Nat) {i j : Nat} (h : b.Derives source i j)
    (records : Records) :
    ∃ records', (ofNode marks serial b.node).Takes source ⟨i, records⟩ ⟨j, records'⟩ := by
  cases b with
  | sequence items => exact takesAll_of_derives items _ h records
  | alternatives items => exact takesAny_of_derives items _ h records
  | optional items greedy =>
    rcases h with rfl | h
    · exact ⟨records, .inl rfl⟩
    · obtain ⟨records', h⟩ := takesAll_of_derives items _ h records
      exact ⟨records', .inr h⟩
  | repeated items greedy =>
    replace h : TransGen (DerivesAll source items) i j := h
    rw [ofNode_repeated]
    induction h with
    | single h =>
      obtain ⟨records', h⟩ := takesAll_of_derives items _ h records
      exact ⟨records', .single h⟩
    | tail _ h ih =>
      obtain ⟨records₁, h₁⟩ := ih
      obtain ⟨records₂, h₂⟩ := takesAll_of_derives items _ h records₁
      exact ⟨records₂, .tail h₁ h₂⟩
  | anchor start =>
    obtain ⟨rfl, h⟩ := h
    exact ⟨records, rfl, h⟩
  | matchType kind =>
    obtain ⟨rfl, node, hnode, rfl⟩ := h
    rw [ofNode_matchType]
    exact ⟨records, node, hnode, by simp [Test.passes], rfl⟩
  | matchValue target =>
    obtain ⟨rfl, node, hnode, hkind, word, hword, htarget⟩ := h
    exact ⟨records, node, hnode, by simp [Test.passes, hkind, hword, htarget], rfl⟩
  | capture name inner =>
    obtain ⟨records', h⟩ := takes_of_derives inner _ h _
    exact ⟨_, _, Pattern.takesAll_singleton.mpr h, rfl⟩

theorem takesAll_of_derives (bs : List Blueprint) (serial : Nat) {i j : Nat}
    (h : DerivesAll source bs i j) (records : Records) :
    ∃ records',
      Pattern.TakesAll source (ofNodes marks serial (nodes bs)) ⟨i, records⟩ ⟨j, records'⟩ := by
  cases bs with
  | nil =>
    obtain rfl : i = j := h
    exact ⟨records, rfl⟩
  | cons b bs =>
    obtain ⟨k, hb, hbs⟩ := h
    obtain ⟨records₁, h₁⟩ := takes_of_derives b _ hb records
    obtain ⟨records₂, h₂⟩ := takesAll_of_derives bs _ hbs records₁
    exact ⟨records₂, _, h₁, h₂⟩

theorem takesAny_of_derives (bs : List Blueprint) (serial : Nat) {i j : Nat}
    (h : DerivesAny source bs i j) (records : Records) :
    ∃ records',
      Pattern.TakesAny source (ofNodes marks serial (nodes bs)) ⟨i, records⟩ ⟨j, records'⟩ := by
  cases bs with
  | nil => exact h.elim
  | cons b bs =>
    rcases h with h | h
    · obtain ⟨records', h⟩ := takes_of_derives b _ h records
      exact ⟨records', .inl h⟩
    · obtain ⟨records', h⟩ := takesAny_of_derives bs _ h records
      exact ⟨records', .inr h⟩

end

end Blueprint
end Homoicon
