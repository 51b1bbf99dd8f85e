import Homoicon.Proofs.Thread.Trail

/-! Where lazy repetitions are left and entered again. -/
namespace Homoicon
open Relation (ReflTransGen)

namespace Frame
variable {root : Pattern} {f g : Frame} {outer outer' : List Frame}

/-- The items that frames have come to tell them from all others of their pattern. -/
theorem eq_of_index (hf : f.Within root outer) (hg : g.Within root outer')
    (hindex : f.index = g.index) (houter : outer.map index = outer'.map index) :
    f = g ∧ outer = outer' := by
  induction outer generalizing f g outer' with
  | nil =>
    obtain rfl := List.map_eq_nil_iff.mp houter.symm
    exact ⟨eq_of_group_eq (hf.1.trans hg.1.symm) hindex, rfl⟩
  | cons parent outer ih =>
    obtain ⟨parent', outer', rfl, hparent, houter⟩ := List.map_eq_cons_iff.mp houter.symm
    obtain ⟨rfl, rfl⟩ := ih hf.2.2 hg.2.2 hparent.symm houter.symm
    exact ⟨eq_of_group_eq (Option.some.inj (hf.1.symm.trans hg.1)) hindex, rfl⟩

end Frame

namespace Thread
variable {t u v : Thread} {index k : Nat} {atEnd : Bool} {root : Pattern}

theorem place_eq_of_position (ht : t.top.Within root t.outer) (hu : u.top.Within root u.outer)
    (hstart : u.start = t.start) (hpattern : u.pattern = t.pattern)
    (hindex : u.top.index = t.top.index) (hposition : u.position = t.position) :
    u.place = t.place :=
  place_eq_iff.mpr ⟨hstart, hpattern, Frame.eq_of_index hu ht hindex hposition⟩

/-- A lazy repetition is left first, and begins again second. -/
theorem LazyEnd.branch_iff (h : t.LazyEnd) :
    t.Branch index atEnd k u ↔
      k = 0 ∧ (∃ parent outer, t.outer = parent :: outer ∧ u = t.leave parent outer) ∨
        k = 1 ∧ u = t.restart := by
  obtain ⟨hcur, ho, hs⟩ := h
  obtain ⟨parent, outer, ho⟩ := List.exists_cons_of_ne_nil ho
  have hwait : t.awaitsInput = false := by simp [awaitsInput, hcur]
  have hmove : t.move index atEnd = .ok (.threads [t.leave parent outer, t.restart]) := by
    simp [move, exits, hcur, ho, hs]
  constructor
  · rintro ⟨-, next, hnext, hk⟩
    cases hmove.symm.trans hnext
    cases k with
    | zero => exact .inl ⟨rfl, parent, outer, ho, (Option.some.inj hk).symm⟩
    | succ k =>
      cases k with
      | zero => exact .inr ⟨rfl, (Option.some.inj hk).symm⟩
      | succ k => cases hk
  · rintro (⟨rfl, parent', outer', ho', rfl⟩ | ⟨rfl, rfl⟩)
    · cases ho.symm.trans ho'
      exact ⟨hwait, _, hmove, rfl⟩
    · exact ⟨hwait, _, hmove, rfl⟩

/-- Moves out of a lazy repetition start at its end. -/
theorem Follows.lazyEnd (h : t.Follows index atEnd u) (hout : u.outer.length < t.outer.length)
    (hs : t.top.shape = .repetition false) : t.LazyEnd := by
  cases h with
  | leave hcur ho =>
    refine ⟨hcur, ?_, hs⟩
    rw [ho]
    exact List.cons_ne_nil _ _
  | restart => exact absurd hout (Nat.lt_irrefl _)
  | skip => exact absurd hout (Nat.lt_irrefl _)
  | anchor => exact absurd hout (Nat.lt_irrefl _)
  | enter => exact absurd (Nat.lt_trans (Nat.lt_succ_self _) hout) (Nat.lt_irrefl _)

/-- A repetition is entered at its first item. -/
theorem Follows.index_eq_zero (h : t.Follows index atEnd u)
    (hin : t.outer.length < u.outer.length) (hs : u.top.shape.isRepetition = true) :
    u.top.index = 0 := by
  cases h with
  | enter hcur hk =>
    rcases hk with ⟨-, rfl⟩ | ⟨rfl, -⟩
    · rfl
    · cases hs
  | leave hcur ho =>
    rw [ho] at hin
    exact absurd (Nat.lt_trans (Nat.lt_succ_self _) hin) (Nat.lt_irrefl _)
  | restart => exact absurd hin (Nat.lt_irrefl _)
  | skip => exact absurd hin (Nat.lt_irrefl _)
  | anchor => exact absurd hin (Nat.lt_irrefl _)

end Thread
end Homoicon
