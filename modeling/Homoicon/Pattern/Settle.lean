import Homoicon.Pattern.Thread
import Std.Data.TreeSet
import Std.Data.TreeSet.Lemmas

/-! Threads run as far as they come without input. -/
namespace Homoicon

/-- The words of the threads that have been met. -/
abbrev Digests := Std.TreeSet UInt64

namespace Digests

/-- How many of all words have not been met. -/
@[irreducible] def unseen (seen : Digests) : Nat :=
  (List.range UInt64.size).countP fun word => !seen.contains (.ofNat word)

private theorem countP_lt_of_imp {α : Type} {p q : α → Bool} {a : α} (himp : ∀ x, q x → p x)
    (hp : p a) (hq : ¬ q a) : ∀ {l : List α}, a ∈ l → l.countP q < l.countP p := by
  intro l ha
  induction l with
  | nil => simp at ha
  | cons b l ih =>
    have hle : l.countP q ≤ l.countP p := List.countP_mono_left fun x _ => himp x
    simp only [List.countP_cons]
    by_cases hb : b = a
    · subst hb
      simp only [hp, hq, if_true]
      simp
      omega
    · have hlt := ih ((List.mem_cons.1 ha).resolve_left fun h => hb h.symm)
      have hstep : (if q b then 1 else 0) ≤ (if p b then 1 else 0) := by
        by_cases hqb : q b
        · simp [hqb, himp b hqb]
        · simp [hqb]
      omega

theorem unseen_insert_lt {seen : Digests} {word : UInt64} (h : seen.contains word = false) :
    unseen (seen.insert word) < unseen seen := by
  unfold unseen
  have hword : UInt64.ofNat word.toNat = word := UInt64.ofNat_toNat
  refine countP_lt_of_imp (a := word.toNat) ?_ ?_ ?_ ?_
  · intro n hn
    simp only [Std.TreeSet.contains_insert, Bool.not_or, Bool.and_eq_true] at hn
    exact hn.2
  · simp [hword, h]
  · simp [hword]
  · exact List.mem_range.2 word.toNat_lt

end Digests

/-- Leaves out the threads whose words have been met, and adds the words of the others. -/
def keepNew (seen : Digests) : List Thread → List Thread × Digests
  | [] => ([], seen)
  | t :: rest =>
    if seen.contains t.digest then keepNew seen rest
    else
      let (threads, seen) := keepNew (seen.insert t.digest) rest
      (t :: threads, seen)

/-- Either nothing is new, or there are fewer words to come. -/
theorem keepNew_progress (seen : Digests) (threads : List Thread) :
    ((keepNew seen threads).1 = [] ∧ (keepNew seen threads).2 = seen) ∨
      Digests.unseen (keepNew seen threads).2 < Digests.unseen seen := by
  induction threads generalizing seen with
  | nil => exact .inl ⟨rfl, rfl⟩
  | cons t rest ih =>
    unfold keepNew
    split
    · exact ih seen
    · next h =>
      have hlt := Digests.unseen_insert_lt (Bool.eq_false_iff.2 h)
      right
      rcases ih (seen.insert t.digest) with h | h
      · simpa [h.2] using hlt
      · exact Nat.lt_trans h hlt

/-- Where threads have come to: those that wait for input, each place once, and those whose pattern
is done, both in order. -/
structure Settled where
  waiting : List Thread
  matched : List Thread

/-- Runs threads until all wait for input or are done. What a thread becomes is run before the
threads after it. A place that was reached before is left out, so loops come to an end. -/
def settle (index : Nat) (atEnd : Bool) (seen parked : Digests) :
    List Thread → Except PatternFault Settled
  | [] => .ok ⟨[], []⟩
  | t :: rest =>
    if t.awaitsInput then
      if parked.contains t.digest then settle index atEnd seen parked rest
      else do
        let settled ← settle index atEnd seen (parked.insert t.digest) rest
        .ok { settled with waiting := t :: settled.waiting }
    else
      match t.move index atEnd with
      | .error fault => .error fault
      | .ok .matched => do
        let settled ← settle index atEnd seen parked rest
        .ok { settled with matched := t :: settled.matched }
      | .ok (.threads next) =>
        settle index atEnd (keepNew seen next).2 parked ((keepNew seen next).1 ++ rest)
termination_by threads => (Digests.unseen seen, threads.length)
decreasing_by
  · exact .right _ (by simp)
  · exact .right _ (by simp)
  · exact .right _ (by simp)
  · rcases keepNew_progress seen next with h | h
    · rw [h.1, h.2]
      exact .right _ (by simp)
    · exact .left _ _ h

end Homoicon
