import Homoicon.Proofs.Thread.Rank

/-! The branches of a thread in order of priority, and where earlier ones come to later ones. -/
namespace Homoicon
open Pattern (nullableAll)
open Relation (ReflTransGen TransGen)

namespace Thread
variable {t u v w x : Thread} {index k c : Nat} {atEnd : Bool} {root : Pattern}

/-- The branch of a number among those that a thread has without input. -/
def Branch (index : Nat) (atEnd : Bool) (t : Thread) (k : Nat) (u : Thread) : Prop :=
  t.awaitsInput = false ∧ ∃ next, t.move index atEnd = .ok (.threads next) ∧ next[k]? = some u

theorem Branch.follows (h : t.Branch index atEnd k u) : t.Follows index atEnd u := by
  obtain ⟨hw, next, hnext, hk⟩ := h
  exact follows_of_mem_move hw hnext (List.mem_of_getElem? hk)

theorem not_branch_of_awaitsInput (h : t.awaitsInput = true) (k : Nat) (u : Thread) :
    ¬t.Branch index atEnd k u :=
  fun hu => Bool.noConfusion (hu.1.symm.trans h)

theorem Branch.unique (h : t.Branch index atEnd k u) (h' : t.Branch index atEnd k v) : u = v := by
  obtain ⟨-, next, hnext, hk⟩ := h
  obtain ⟨-, next', hnext', hk'⟩ := h'
  cases hnext.symm.trans hnext'
  exact Option.some.inj (hk.symm.trans hk')

theorem move_of_place_eq {next : List Thread} (h : t.move index atEnd = .ok (.threads next))
    (hv : v.place = t.place) :
    ∃ next', v.move index atEnd = .ok (.threads next') ∧ next'.map place = next.map place := by
  rw [eq_of_place_eq hv]
  obtain ⟨start, pattern, top, outer, records⟩ := t
  unfold move at h ⊢
  dsimp only at h ⊢
  cases hcur : top.current with
  | none =>
    rw [hcur] at h
    unfold exits at h ⊢
    cases outer with
    | nil => simp at h
    | cons parent outer =>
      dsimp only at h ⊢
      cases hs : top.shape with
      | repetition greedy =>
        rw [hs] at h
        cases greedy <;> cases h <;> exact ⟨_, rfl, rfl⟩
      | _ =>
        rw [hs] at h
        cases h
        exact ⟨_, rfl, rfl⟩
  | some p =>
    rw [hcur] at h
    cases p with
    | group mark shape items =>
      cases h
      refine ⟨_, rfl, ?_⟩
      unfold entries
      cases shape with
      | choice =>
        simp only [List.map_map]
        rfl
      | optional greedy => cases greedy <;> rfl
      | _ => rfl
    | anchor start =>
      cases h
      refine ⟨_, rfl, ?_⟩
      split <;> split <;> rfl
    | test condition =>
      cases h
      exact ⟨_, rfl, rfl⟩
    | faulty fault => cases h

/-- Threads in one place have the same branches, but for what they have recorded. -/
theorem Branch.of_place_eq (h : t.Branch index atEnd k u) (hv : v.place = t.place) :
    ∃ w, v.Branch index atEnd k w ∧ w.place = u.place := by
  obtain ⟨hwait, next, hnext, hk⟩ := h
  obtain ⟨next', hnext', hplaces⟩ := move_of_place_eq hnext hv
  have hwait' : v.awaitsInput = false := by
    rw [← awaitsInput_place, hv, awaitsInput_place, hwait]
  have hplace := congrArg (·[k]?) hplaces
  simp only [List.getElem?_map, hk, Option.map_some] at hplace
  obtain ⟨w, hw, hwu⟩ := Option.map_eq_some_iff.mp hplace
  exact ⟨w, ⟨hwait', next', hnext', hw⟩, hwu⟩

/-- A thread at the end of a lazy repetition. -/
def LazyEnd (t : Thread) : Prop :=
  t.top.current = none ∧ t.outer ≠ [] ∧ t.top.shape = .repetition false

/-- Two branches of a thread, the first of higher priority. -/
inductive Fork (t : Thread) : Nat → Thread → Nat → Thread → Prop
  | again {parent : Frame} {outer : List Frame} (h : t.top.current = none)
      (ho : t.outer = parent :: outer) (hs : t.top.shape = .repetition true) :
      Fork t 0 t.restart 1 (t.leave parent outer)
  | out {parent : Frame} {outer : List Frame} (h : t.top.current = none)
      (ho : t.outer = parent :: outer) (hs : t.top.shape = .repetition false) :
      Fork t 0 (t.leave parent outer) 1 t.restart
  | choose {mark : UInt64} {items : List Pattern} {c k : Nat}
      (h : t.top.current = some (.group mark .choice items)) (hlt : c < k) (hk : k < items.length) :
      Fork t c (t.enter mark .choice items c) k (t.enter mark .choice items k)
  | take {mark : UInt64} {items : List Pattern}
      (h : t.top.current = some (.group mark (.optional true) items)) :
      Fork t 0 (t.enter mark (.optional true) items 0) 1 t.pass
  | skip {mark : UInt64} {items : List Pattern}
      (h : t.top.current = some (.group mark (.optional false) items)) :
      Fork t 0 t.pass 1 (t.enter mark (.optional false) items 0)

theorem getElem?_pair {α : Type} {a b x y : α} {c k : Nat} (hx : [a, b][c]? = some x)
    (hy : [a, b][k]? = some y) (hlt : c < k) : c = 0 ∧ k = 1 ∧ x = a ∧ y = b := by
  have hk := (List.getElem?_eq_some_iff.mp hy).1
  obtain rfl : k = 1 := by
    simp only [List.length_cons, List.length_nil] at hk
    omega
  obtain rfl : c = 0 := by omega
  simp_all

theorem not_getElem?_singleton {α : Type} {a x : α} {c k : Nat} (hlt : c < k) :
    [a][k]? ≠ some x := by
  intro h
  have hk := (List.getElem?_eq_some_iff.mp h).1
  simp only [List.length_cons, List.length_nil] at hk
  omega

theorem Branch.fork (hx : t.Branch index atEnd c x) (hw : t.Branch index atEnd k w)
    (hlt : c < k) : t.Fork c x k w := by
  obtain ⟨hwait, next, hnext, hc⟩ := hx
  obtain ⟨-, next', hnext', hk⟩ := hw
  cases hnext.symm.trans hnext'
  unfold move at hnext
  cases hcur : t.top.current with
  | none =>
    rw [hcur] at hnext
    unfold exits at hnext
    cases ho : t.outer with
    | nil => simp [ho] at hnext
    | cons parent outer =>
      rw [ho] at hnext
      cases hs : t.top.shape with
      | repetition greedy =>
        rw [hs] at hnext
        cases greedy <;> cases hnext
        · obtain ⟨rfl, rfl, rfl, rfl⟩ := getElem?_pair hc hk hlt
          exact .out hcur ho hs
        · obtain ⟨rfl, rfl, rfl, rfl⟩ := getElem?_pair hc hk hlt
          exact .again hcur ho hs
      | _ =>
        rw [hs] at hnext
        cases hnext
        exact absurd hk (not_getElem?_singleton hlt)
  | some p =>
    rw [hcur] at hnext
    cases p with
    | group mark shape items =>
      cases hnext
      unfold entries at hc hk
      cases shape with
      | choice =>
        simp only [List.getElem?_map, Option.map_eq_some_iff] at hc hk
        obtain ⟨c', hc', rfl⟩ := hc
        obtain ⟨k', hk', rfl⟩ := hk
        obtain ⟨hclt, rfl⟩ := List.getElem?_eq_some_iff.mp hc'
        obtain ⟨hklt, rfl⟩ := List.getElem?_eq_some_iff.mp hk'
        simp only [List.getElem_range]
        exact .choose hcur hlt (by simpa using hklt)
      | optional greedy =>
        cases greedy
        · obtain ⟨rfl, rfl, rfl, rfl⟩ := getElem?_pair hc hk hlt
          exact .skip hcur
        · obtain ⟨rfl, rfl, rfl, rfl⟩ := getElem?_pair hc hk hlt
          exact .take hcur
      | _ => exact absurd hk (not_getElem?_singleton hlt)
    | anchor start =>
      cases hnext
      by_cases hs : (if start then index == 0 else atEnd) = true
      · rw [if_pos hs] at hk
        exact absurd hk (not_getElem?_singleton hlt)
      · rw [if_neg hs] at hk
        cases hk
    | test condition => simp [awaitsInput_iff.mpr ⟨_, hcur⟩] at hwait
    | faulty fault => cases hnext

end Thread

namespace Frame
variable {f : Frame} {p : Pattern}

/-- Whether the ends of several frames, from the inside out, can be come to without a node. -/
def passableAll (f : Frame) : List Frame → Bool
  | [] => f.passable
  | parent :: outer => f.passable && parent.advance.passableAll outer

theorem passableAll_of_current (h : f.current = some p) (mids : List Frame) :
    f.passableAll mids = (p.nullable && f.advance.passableAll mids) := by
  cases mids with
  | nil => exact passable_of_current h
  | cons parent mids =>
    unfold passableAll
    rw [passable_of_current h, Bool.and_assoc]

end Frame

namespace Thread
variable {t u v w x : Thread} {index k c : Nat} {atEnd : Bool} {root : Pattern} {base : List Frame}

/-- A thread inside the frames `base`, whose end of the group right in them takes a node. -/
def Inside (base : List Frame) (t : Thread) : Prop :=
  ∃ mids, t.outer = mids ++ base ∧ t.top.passableAll mids = false

/-- No move leads out of a group whose end takes a node. -/
theorem Inside.follows (h : t.Inside base) (hu : t.Follows index atEnd u)
    (ht : t.top.group.Productive) : u.Inside base := by
  obtain ⟨mids, houter, hblocked⟩ := h
  cases hu with
  | @skip mark greedy items hcur =>
    rw [Frame.passableAll_of_current hcur] at hblocked
    exact ⟨mids, houter, hblocked⟩
  | anchor hcur hs =>
    rw [Frame.passableAll_of_current hcur] at hblocked
    exact ⟨mids, houter, hblocked⟩
  | @enter mark shape items k hcur hk =>
    refine ⟨t.top :: mids, congrArg (t.top :: ·) houter, ?_⟩
    rw [Frame.passableAll_of_current hcur] at hblocked
    unfold Frame.passableAll
    cases hpass : Frame.passable ⟨mark, shape, items, k⟩ with
    | false => simp only [Thread.enter, hpass, Bool.false_and]
    | true =>
      rw [Frame.nullable_of_passable hk hpass, Bool.true_and] at hblocked
      simp only [Thread.enter, hpass, hblocked, Bool.and_false]
  | @leave parent outer hcur ho =>
    have hpass := Frame.passable_of_end hcur
    cases mids with
    | nil =>
      rw [Frame.passableAll, hpass] at hblocked
      cases hblocked
    | cons frame mids =>
      rw [ho, List.cons_append] at houter
      cases houter
      rw [Frame.passableAll, hpass, Bool.true_and] at hblocked
      exact ⟨mids, rfl, hblocked⟩
  | @restart greedy hcur ho hs =>
    have hstart := Frame.passable_restart ht hs
    refine ⟨mids, houter, ?_⟩
    cases mids with
    | nil => exact hstart
    | cons frame mids =>
      unfold Frame.passableAll
      simp only [Thread.restart, hstart, Bool.false_and]

theorem Inside.length_le (h : t.Inside base) : base.length ≤ t.outer.length := by
  obtain ⟨mids, houter, -⟩ := h
  rw [houter, List.length_append]
  omega

section Walk
variable (hroot : root.Productive)
include hroot

omit hroot in
theorem start_eq_of_walk (h : ReflTransGen (Follows index atEnd) t u) : u.start = t.start := by
  induction h with
  | refl => rfl
  | tail _ hu ih => exact hu.start_eq.trans ih

omit hroot in
theorem pattern_eq_of_walk (h : ReflTransGen (Follows index atEnd) t u) :
    u.pattern = t.pattern := by
  induction h with
  | refl => rfl
  | tail _ hu ih => exact hu.pattern_eq.trans ih

omit hroot in
/-- Threads that moves lead to from one that stands in a pattern stand in it too. -/
theorem within_of_walk (ht : t.top.Within root t.outer)
    (h : ReflTransGen (Follows index atEnd) t u) : u.top.Within root u.outer := by
  induction h with
  | refl => exact ht
  | tail _ hu ih => exact hu.within ih

theorem rank_le_of_walk (ht : t.top.Within root t.outer)
    (h : ReflTransGen (Follows index atEnd) t u) : u.rank ≤ t.rank := by
  induction h with
  | refl => exact Nat.le_refl _
  | tail hwalk hu ih =>
    have hlt := hu.rank_lt ((within_of_walk ht hwalk).productive hroot)
    omega

theorem inside_of_walk (ht : t.top.Within root t.outer)
    (h : ReflTransGen (Follows index atEnd) t u) (hin : t.Inside base) : u.Inside base := by
  induction h with
  | refl => exact hin
  | tail hwalk hu ih => exact ih.follows hu ((within_of_walk ht hwalk).productive hroot)

/-- Moves never lead back to a place. -/
theorem place_ne_of_walk (ht : t.top.Within root t.outer) (hx : t.Follows index atEnd x)
    (h : ReflTransGen (Follows index atEnd) x v) : v.place ≠ t.place := by
  intro hplace
  have hlt := hx.rank_lt (ht.productive hroot)
  have hle := rank_le_of_walk hroot (hx.within ht) h
  rw [rank_eq_of_place_eq hplace] at hle
  omega

omit hroot in
/-- A thread that has just moved stands after an item, in a group that it has entered, or at the
start of its group again. -/
theorem Follows.cases_top (h : v.Follows index atEnd u) (hv : v.top.Within root v.outer) :
    (∃ (f : Frame) (p : Pattern), f.current = some p ∧ u.top = f.advance) ∨
      u.outer = v.top :: v.outer ∨
      v.top.current = none ∧ (∃ greedy, v.top.shape = .repetition greedy) ∧ u = v.restart := by
  cases h with
  | skip hcur => exact .inl ⟨_, _, hcur, rfl⟩
  | anchor hcur _ => exact .inl ⟨_, _, hcur, rfl⟩
  | enter hcur hk => exact .inr (.inl rfl)
  | leave hcur ho =>
    rw [ho] at hv
    exact .inl ⟨_, _, hv.1, rfl⟩
  | restart hcur ho hs => exact .inr (.inr ⟨hcur, ⟨_, hs⟩, rfl⟩)

omit hroot in
theorem ne_advance {g : Frame}
    (h : g.shape ≠ .choice ∧ g.index = 0 ∨ g.shape = .choice ∧ g.index < g.items.length)
    (f : Frame) : g ≠ f.advance := by
  rintro rfl
  by_cases hs : f.shape = .choice
  · rw [Frame.advance_of_choice hs] at h
    rcases h with ⟨hne, -⟩ | ⟨-, hlt⟩
    · exact hne hs
    · exact Nat.lt_irrefl _ hlt
  · rw [Frame.advance_of_ne_choice hs] at h
    rcases h with ⟨-, hzero⟩ | ⟨hc, -⟩
    · exact Nat.succ_ne_zero _ hzero
    · exact hs hc

omit hroot in
theorem top_eq_of_restart (ht : t.top.Within root t.outer) (hv : v.top.Within root v.outer)
    (htend : t.top.current = none) (hvend : v.top.current = none)
    (h : v.restart.top = t.restart.top) : v.top = t.top := by
  have hti := Nat.le_antisymm ht.index_le (Frame.current_eq_none_iff.mp htend)
  have hvi := Nat.le_antisymm hv.index_le (Frame.current_eq_none_iff.mp hvend)
  have hrestart : v.restart.top.group = t.restart.top.group := congrArg Frame.group h
  have hgroup : v.top.group = t.top.group := hrestart
  have hlength : v.top.items.length = t.top.items.length :=
    congrArg List.length (Pattern.group.inj hgroup).2.2
  exact Frame.eq_of_group_eq hgroup (hvi.trans (hlength.trans hti.symm))

/-- Moves that stay inside some frames come to no place outside of them. -/
theorem place_ne_of_inside (hx : x.top.Within root x.outer)
    (hwalk : ReflTransGen (Follows index atEnd) x u) (hin : x.Inside base)
    (hlt : w.outer.length < base.length) : u.place ≠ w.place := by
  intro hplace
  have hle := (inside_of_walk hroot hx hwalk hin).length_le
  rw [(place_eq_iff.mp hplace).2.2.2] at hle
  omega

/-- Moves from one branch of a thread do not lead into a group that another branch enters, unless
the group is a repetition. -/
theorem place_ne_enter {mark : UInt64} {shape : Shape} {items : List Pattern}
    (ht : t.top.Within root t.outer) (hx : t.Follows index atEnd x)
    (hwalk : ReflTransGen (Follows index atEnd) x v) (hu : v.Follows index atEnd u)
    (hk : shape ≠ .choice ∧ k = 0 ∨ shape = .choice ∧ k < items.length)
    (hne : ∀ greedy, shape ≠ .repetition greedy) :
    u.place ≠ (t.enter mark shape items k).place := by
  intro hplace
  obtain ⟨hstart, hpattern, htop, houter⟩ := place_eq_iff.mp hplace
  rw [hu.start_eq] at hstart
  rw [hu.pattern_eq] at hpattern
  rcases hu.cases_top (within_of_walk (hx.within ht) hwalk) with
    ⟨f, p, hf, hadvance⟩ | hent | ⟨hend, ⟨greedy, hs⟩, rfl⟩
  · exact absurd (htop.symm.trans hadvance) (ne_advance hk f)
  · -- the thread would come back to the fork to enter the group
    have hframes := List.cons.inj (hent.symm.trans houter)
    have hback : v.place = t.place := place_eq_iff.mpr ⟨hstart, hpattern, hframes⟩
    exact absurd hback (place_ne_of_walk hroot ht hx hwalk)
  · have hshape : v.top.shape = shape := congrArg Frame.shape htop
    exact hne greedy (hshape.symm.trans hs)

/-- Where moves come to the start of a repetition that has come to its end, it has been entered
anew. -/
theorem outer_eq_of_restart (ht : t.top.Within root t.outer) (hcur : t.top.current = none)
    (hshape : t.top.shape ≠ .choice) (hx : t.Follows index atEnd x)
    (hwalk : ReflTransGen (Follows index atEnd) x v) (hu : v.Follows index atEnd u)
    (hplace : u.place = t.restart.place) : u.outer = v.top :: v.outer := by
  have hv := within_of_walk (hx.within ht) hwalk
  obtain ⟨hstart, hpattern, htop, houter⟩ := place_eq_iff.mp hplace
  rcases hu.cases_top hv with ⟨f, p, hf, hadvance⟩ | hent | ⟨hend, -, rfl⟩
  · have hrestart : t.restart.top.shape ≠ .choice := hshape
    have hfresh := ne_advance (.inl ⟨hrestart, rfl⟩) f
    exact absurd (htop.symm.trans hadvance) hfresh
  · exact hent
  · have hsame : v.top = t.top := top_eq_of_restart ht hv hcur hend htop
    have hback : v.place = t.place := place_eq_iff.mpr ⟨hstart, hpattern, hsame, houter⟩
    exact absurd hback (place_ne_of_walk hroot ht hx hwalk)

/-- Where the earlier of two branches comes to the place of the later one, a lazy repetition has
been left and is entered again. -/
theorem Fork.lazy (hfork : t.Fork c x k w) (ht : t.top.Within root t.outer)
    (hx : t.Follows index atEnd x) (hwalk : ReflTransGen (Follows index atEnd) x v)
    (hu : v.Follows index atEnd u) (hplace : u.place = w.place) :
    t.LazyEnd ∧ c = 0 ∧ k = 1 ∧ u.outer = v.top :: v.outer := by
  have hxw := hx.within ht
  have hwalk' : ReflTransGen (Follows index atEnd) x u := hwalk.tail hu
  cases hfork with
  | @again parent outer hcur ho hs =>
    have hin : t.restart.Inside t.outer :=
      ⟨[], rfl, Frame.passable_restart (ht.productive hroot) hs⟩
    refine absurd hplace (place_ne_of_inside hroot hxw hwalk' hin ?_)
    simp [Thread.leave, ho]
  | @take mark items hcur =>
    have hgroup := Pattern.productiveAll_iff.mp (ht.productive hroot).2 _
      (List.mem_of_getElem? hcur)
    have hin : (t.enter mark (.optional true) items 0).Inside (t.top :: t.outer) :=
      ⟨[], rfl, hgroup.1⟩
    exact absurd hplace (place_ne_of_inside hroot hxw hwalk' hin (Nat.lt_succ_self _))
  | skip hcur =>
    exact absurd hplace (place_ne_enter hroot ht hx hwalk hu (.inl ⟨Shape.noConfusion, rfl⟩)
      fun _ => Shape.noConfusion)
  | choose hcur hlt hk =>
    exact absurd hplace (place_ne_enter hroot ht hx hwalk hu (.inr ⟨rfl, hk⟩)
      fun _ => Shape.noConfusion)
  | @out parent outer hcur ho hs =>
    have hshape : t.top.shape ≠ .choice := by
      rw [hs]
      exact Shape.noConfusion
    have hent := outer_eq_of_restart hroot ht hcur hshape hx hwalk hu hplace
    exact ⟨⟨hcur, ho ▸ List.cons_ne_nil _ _, hs⟩, rfl, rfl, hent⟩

end Walk
end Thread
end Homoicon
