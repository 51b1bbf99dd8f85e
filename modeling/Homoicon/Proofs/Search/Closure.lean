import Homoicon.Proofs.Failure
import Homoicon.Proofs.Thread.Step

/-! What settling threads keeps to: no thread is dropped but for one of its word, and what moves
preserve holds of all that settles. -/
namespace Homoicon

theorem Digests.contains_insert_iff {seen : Digests} {word word' : UInt64} :
    (seen.insert word).contains word' = true ↔ word = word' ∨ seen.contains word' = true := by
  simp only [Std.TreeSet.contains_insert, Bool.or_eq_true, beq_iff_eq,
    Std.LawfulEqCmp.compare_eq_iff_eq]

section KeepNew
variable {seen : Digests} {threads : List Thread} {t : Thread}

theorem keepNew_cons_of_contains (h : seen.contains t.digest = true) :
    keepNew seen (t :: threads) = keepNew seen threads := by
  simp [keepNew, h]

theorem keepNew_cons_of_not_contains (h : seen.contains t.digest = false) :
    keepNew seen (t :: threads) =
      (t :: (keepNew (seen.insert t.digest) threads).1,
        (keepNew (seen.insert t.digest) threads).2) := by
  simp [keepNew, h]

theorem keepNew_sublist (seen : Digests) (threads : List Thread) :
    (keepNew seen threads).1.Sublist threads := by
  induction threads generalizing seen with
  | nil => exact .slnil
  | cons t threads ih =>
    cases h : seen.contains t.digest with
    | true =>
      rw [keepNew_cons_of_contains h]
      exact (ih seen).cons t
    | false =>
      rw [keepNew_cons_of_not_contains h]
      exact (ih _).cons_cons t

/-- The words that have been met in the end are the old ones and those of the threads kept. -/
theorem contains_keepNew {word : UInt64} :
    (keepNew seen threads).2.contains word = true ↔
      seen.contains word = true ∨ ∃ t ∈ (keepNew seen threads).1, t.digest = word := by
  induction threads generalizing seen with
  | nil => simp [keepNew]
  | cons t threads ih =>
    cases h : seen.contains t.digest with
    | true => rw [keepNew_cons_of_contains h, ih]
    | false =>
      rw [keepNew_cons_of_not_contains h, ih]
      simp only [Digests.contains_insert_iff, List.mem_cons, exists_eq_or_imp]
      rw [or_assoc, or_left_comm]

theorem not_contains_of_keepNew {word : UInt64}
    (h : (keepNew seen threads).2.contains word = false) : seen.contains word = false := by
  rw [Bool.eq_false_iff] at h ⊢
  exact fun hseen => h (contains_keepNew.mpr (.inl hseen))

/-- No thread is dropped but for one of its word. -/
theorem contains_keepNew_of_mem (h : t ∈ threads) :
    (keepNew seen threads).2.contains t.digest = true := by
  induction threads generalizing seen with
  | nil => simp at h
  | cons u threads ih =>
    cases hu : seen.contains u.digest with
    | true =>
      rw [keepNew_cons_of_contains hu]
      rcases List.mem_cons.mp h with rfl | h
      · exact contains_keepNew.mpr (.inl hu)
      · exact ih h
    | false =>
      rw [keepNew_cons_of_not_contains hu]
      rcases List.mem_cons.mp h with rfl | h
      · exact contains_keepNew.mpr (.inl (by simp))
      · exact ih h

theorem keepNew_fresh : ∀ t ∈ (keepNew seen threads).1, seen.contains t.digest = false := by
  induction threads generalizing seen with
  | nil => simp [keepNew]
  | cons t threads ih =>
    cases h : seen.contains t.digest with
    | true =>
      rw [keepNew_cons_of_contains h]
      exact ih
    | false =>
      rw [keepNew_cons_of_not_contains h]
      intro u hu
      rcases List.mem_cons.mp hu with rfl | hu
      · exact h
      · have hnew := ih u hu
        rw [Std.TreeSet.contains_insert, Bool.or_eq_false_iff] at hnew
        exact hnew.2

theorem keepNew_pairwise :
    (keepNew seen threads).1.Pairwise fun t u => t.digest ≠ u.digest := by
  induction threads generalizing seen with
  | nil => simp [keepNew]
  | cons t threads ih =>
    cases h : seen.contains t.digest with
    | true =>
      rw [keepNew_cons_of_contains h]
      exact ih
    | false =>
      rw [keepNew_cons_of_not_contains h]
      refine List.pairwise_cons.mpr ⟨fun u hu heq => ?_, ih⟩
      have hnew := keepNew_fresh u hu
      simp [heq] at hnew

end KeepNew

section SettleCons
variable {index : Nat} {atEnd : Bool} {seen parked : Digests} {t : Thread} {rest next : List Thread}
  {settled : Settled}

theorem settle_cons_of_parked (hw : t.awaitsInput = true) (hp : parked.contains t.digest = true) :
    settle index atEnd seen parked (t :: rest) = settle index atEnd seen parked rest := by
  rw [settle, if_pos hw, if_pos hp]

theorem settle_cons_of_waiting (hw : t.awaitsInput = true)
    (hp : ¬parked.contains t.digest = true)
    (h : settle index atEnd seen (parked.insert t.digest) rest = .ok settled) :
    settle index atEnd seen parked (t :: rest) =
      .ok { settled with waiting := t :: settled.waiting } := by
  rw [settle, if_pos hw, if_neg hp, h]
  rfl

theorem settle_cons_of_matched (hw : ¬t.awaitsInput = true)
    (hm : t.move index atEnd = .ok .matched)
    (h : settle index atEnd seen parked rest = .ok settled) :
    settle index atEnd seen parked (t :: rest) =
      .ok { settled with matched := t :: settled.matched } := by
  rw [settle, if_neg hw, hm, h]
  rfl

theorem settle_cons_of_threads (hw : ¬t.awaitsInput = true)
    (hm : t.move index atEnd = .ok (.threads next)) :
    settle index atEnd seen parked (t :: rest) =
      settle index atEnd (keepNew seen next).2 parked ((keepNew seen next).1 ++ rest) := by
  rw [settle, if_neg hw, hm]

end SettleCons

/-- How threads settle: there are none, or the first is dropped for one of its word that waits,
waits itself, is done, or moves and leaves its place to the new ones of what it becomes. -/
inductive Settles (index : Nat) (atEnd : Bool) : Digests → Digests → List Thread → Settled → Prop
  | nil {seen parked : Digests} : Settles index atEnd seen parked [] ⟨[], []⟩
  | dropped {seen parked : Digests} {t : Thread} {rest : List Thread} {settled : Settled}
      (hw : t.awaitsInput = true) (hp : parked.contains t.digest = true)
      (h : Settles index atEnd seen parked rest settled) :
      Settles index atEnd seen parked (t :: rest) settled
  | waiting {seen parked : Digests} {t : Thread} {rest : List Thread} {settled : Settled}
      (hw : t.awaitsInput = true) (hp : ¬parked.contains t.digest = true)
      (h : Settles index atEnd seen (parked.insert t.digest) rest settled) :
      Settles index atEnd seen parked (t :: rest) { settled with waiting := t :: settled.waiting }
  | matched {seen parked : Digests} {t : Thread} {rest : List Thread} {settled : Settled}
      (hw : ¬t.awaitsInput = true) (hm : t.move index atEnd = .ok .matched)
      (h : Settles index atEnd seen parked rest settled) :
      Settles index atEnd seen parked (t :: rest) { settled with matched := t :: settled.matched }
  | moved {seen parked : Digests} {t : Thread} {rest next : List Thread} {settled : Settled}
      (hw : ¬t.awaitsInput = true) (hm : t.move index atEnd = .ok (.threads next))
      (h : Settles index atEnd (keepNew seen next).2 parked ((keepNew seen next).1 ++ rest)
        settled) :
      Settles index atEnd seen parked (t :: rest) settled

section Settle
variable {index : Nat} {atEnd : Bool} {seen parked : Digests} {threads : List Thread}
  {settled : Settled} {P : Thread → Prop}

theorem Settles.settle_eq (h : Settles index atEnd seen parked threads settled) :
    settle index atEnd seen parked threads = .ok settled := by
  induction h with
  | nil => rw [settle]
  | dropped hw hp _ ih => exact (settle_cons_of_parked hw hp).trans ih
  | waiting hw hp _ ih => exact settle_cons_of_waiting hw hp ih
  | matched hw hm _ ih => exact settle_cons_of_matched hw hm ih
  | moved hw hm _ ih => exact (settle_cons_of_threads hw hm).trans ih

theorem settles_of_settle (h : settle index atEnd seen parked threads = .ok settled) :
    Settles index atEnd seen parked threads settled := by
  fun_induction settle index atEnd seen parked threads generalizing settled with
  | case1 =>
    cases h
    exact .nil
  | case2 seen parked t rest hw hp ih => exact .dropped hw hp (ih h)
  | case3 seen parked t rest hw hp ih =>
    obtain ⟨later, hlater, heq⟩ := bind_eq_ok.mp h
    cases heq
    exact .waiting hw hp (ih hlater)
  | case4 => cases h
  | case5 seen parked t rest hw hm ih =>
    obtain ⟨later, hlater, heq⟩ := bind_eq_ok.mp h
    cases heq
    exact .matched hw hm (ih hlater)
  | case6 seen parked t rest hw next hm ih => exact .moved hw hm (ih h)

theorem forall_mem_kept (hP : ∀ t u, P t → t.Follows index atEnd u → P u) {t : Thread}
    {rest next : List Thread} (ht : ∀ u ∈ t :: rest, P u) (hw : ¬t.awaitsInput = true)
    (hm : t.move index atEnd = .ok (.threads next)) :
    ∀ u ∈ (keepNew seen next).1 ++ rest, P u := by
  intro u hu
  rcases List.mem_append.mp hu with hu | hu
  · have hnext := (keepNew_sublist seen next).subset hu
    exact hP t u (ht t (.head _)) (Thread.follows_of_mem_move (by simpa using hw) hm hnext)
  · exact ht u (.tail _ hu)

/-- Settled threads have every property that moves keep. Those that wait do so for input, and the
patterns of the others are done. -/
theorem settle_preserves (hP : ∀ t u, P t → t.Follows index atEnd u → P u)
    (ht : ∀ t ∈ threads, P t) (h : settle index atEnd seen parked threads = .ok settled) :
    (∀ w ∈ settled.waiting, P w ∧ w.awaitsInput = true) ∧
      ∀ m ∈ settled.matched, P m ∧ m.Done := by
  replace h := settles_of_settle h
  induction h with
  | nil => exact ⟨List.forall_mem_nil _, List.forall_mem_nil _⟩
  | dropped hw hp _ ih => exact ih fun u hu => ht u (.tail _ hu)
  | waiting hw hp _ ih =>
    obtain ⟨hwaiting, hmatched⟩ := ih fun u hu => ht u (.tail _ hu)
    exact ⟨List.forall_mem_cons.mpr ⟨⟨ht _ (.head _), hw⟩, hwaiting⟩, hmatched⟩
  | matched hw hm _ ih =>
    obtain ⟨hwaiting, hmatched⟩ := ih fun u hu => ht u (.tail _ hu)
    have hdone := Thread.move_eq_matched_iff.mp hm
    exact ⟨hwaiting, List.forall_mem_cons.mpr ⟨⟨ht _ (.head _), hdone⟩, hmatched⟩⟩
  | moved hw hm _ ih => exact ih (forall_mem_kept hP ht hw hm)

theorem settle_ok (hP : ∀ t u, P t → t.Follows index atEnd u → P u)
    (hmove : ∀ t, P t → ∃ move, t.move index atEnd = .ok move) (ht : ∀ t ∈ threads, P t) :
    ∃ settled, settle index atEnd seen parked threads = .ok settled := by
  fun_induction settle index atEnd seen parked threads with
  | case1 => exact ⟨_, rfl⟩
  | case2 seen parked t rest hw hp ih => exact ih fun u hu => ht u (.tail _ hu)
  | case3 seen parked t rest hw hp ih =>
    obtain ⟨later, hlater⟩ := ih fun u hu => ht u (.tail _ hu)
    exact ⟨_, bind_eq_ok.mpr ⟨later, hlater, rfl⟩⟩
  | case4 seen parked t rest hw fault hm =>
    obtain ⟨move, hmove⟩ := hmove t (ht t (.head _))
    cases hm.symm.trans hmove
  | case5 seen parked t rest hw hm ih =>
    obtain ⟨later, hlater⟩ := ih fun u hu => ht u (.tail _ hu)
    exact ⟨_, bind_eq_ok.mpr ⟨later, hlater, rfl⟩⟩
  | case6 seen parked t rest hw next hm ih =>
    exact ih (forall_mem_kept hP ht hw hm)

end Settle
end Homoicon
