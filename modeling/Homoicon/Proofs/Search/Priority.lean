import Homoicon.Proofs.Search.Address
import Homoicon.Proofs.Search.Exploration
import Homoicon.Proofs.Search.Order
import Homoicon.Proofs.Thread.Return

/-! Which of the trails to a place a search keeps at one offset. -/
namespace Homoicon.Search
open Relation (ReflTransGen)

variable {source : List Node} {roots : List Frame} {i : Nat} {settled : Settled}
  {visits waiting ends : List Visit} {spawned : Set Visit} {a b : List Nat} {x y : Trail}
  {v : Visit}

theorem placed_of_trailAt (hroots : Rooted roots) (h : trailAt source roots a = some x) :
    Placed roots x.thread :=
  (reached_of_trailAt h).placed hroots

theorem walk_of_trailAt (hx : trailAt source roots a = some x) {r : List Nat}
    (hy : trailAt source roots (a ++ r) = some y) (ho : y.offset = x.offset) :
    ReflTransGen (Thread.Follows x.offset (x.offset == source.length)) x.thread y.thread ∧
      x.left ⊆ y.left := by
  rw [trailAt_append hx] at hy
  exact Trail.walk_of_after hy ho

/-- On the way to an address at the same offset, a branch is taken. -/
theorem exists_branch (hx : trailAt source roots a = some x) {k : Nat} {r : List Nat}
    (hy : trailAt source roots (a ++ k :: r) = some y) (ho : y.offset = x.offset) :
    ∃ u, x.thread.Branch x.offset (x.offset == source.length) k u ∧
      trailAt source roots (a ++ [k]) = some (x.follow u) ∧
      ReflTransGen (Thread.Follows x.offset (x.offset == source.length)) u y.thread ∧
      (x.follow u).left ⊆ y.left := by
  have hafter := hy
  rw [trailAt_append hx] at hafter
  obtain ⟨z, hz, hafter⟩ := Trail.after_cons_eq_some.mp hafter
  have hzx : z.offset = x.offset :=
    Nat.le_antisymm (ho ▸ Trail.offset_le_of_after hafter) hz.offset_le
  obtain ⟨hwalk, hleft⟩ := Trail.walk_of_after hafter (ho.trans hzx.symm)
  rw [hzx] at hwalk
  have htrail := trailAt_snoc hx hz
  cases hz with
  | move h => exact ⟨_, h, htrail, hwalk, hleft⟩
  | consume hi h => exact absurd hzx (Nat.succ_ne_self _)

/-- Patterns that an attempt can go through at one offset only so far. -/
def Productive (roots : List Frame) : Prop := ∀ root ∈ roots, root.group.Productive

/-- A trail does not come by a place twice at one offset. -/
theorem place_ne_of_trailAt (hroots : Rooted roots) (hproductive : Productive roots)
    (hx : trailAt source roots a = some x) {r : List Nat} (hr : r ≠ [])
    (hy : trailAt source roots (a ++ r) = some y) (ho : y.offset = x.offset) :
    y.thread.place ≠ x.thread.place := by
  obtain ⟨root, hroot, hwithin⟩ := placed_of_trailAt hroots hx
  obtain ⟨k, r, rfl⟩ := List.exists_cons_of_ne_nil hr
  obtain ⟨u, hu, -, hwalk, -⟩ := exists_branch hx hy ho
  exact Thread.place_ne_of_walk (hproductive root (List.mem_of_getElem? hroot)) hwithin hu.follows
    hwalk

/-- Trails to one place at one offset that come one after the other part on the way. -/
theorem eq_or_before_of_le (hroots : Rooted roots) (hproductive : Productive roots)
    (hx : trailAt source roots a = some x) (hy : trailAt source roots b = some y)
    (ho : y.offset = x.offset) (hplace : y.thread.place = x.thread.place) (hle : Route.Le a b) :
    a = b ∨ Route.Before a b := by
  rcases hle with ⟨r, rfl⟩ | hbefore
  · by_cases hr : r = []
    · rw [hr, List.append_nil]
      exact .inl rfl
    · exact absurd hplace (place_ne_of_trailAt hroots hproductive hx hr hy ho)
  · exact .inr hbefore

def OnTrail (source : List Node) (roots : List Frame) (i : Nat) (v : Visit) (x : Trail) : Prop :=
  trailAt source roots v.address = some x ∧ x.thread = v.thread ∧ x.offset = i ∧
    x.returned = false

theorem OnTrail.reached (h : OnTrail source roots i v x) : Reached source roots i v.thread := by
  obtain ⟨hx, hthread, hoffset, -⟩ := h
  have hreached := reached_of_trailAt hx
  rw [hthread, hoffset] at hreached
  exact hreached

theorem OnTrail.goes (h : OnTrail source roots i v x) {k : Nat} {u : Thread}
    (hu : v.thread.Branch i (i == source.length) k u) : x.Goes source k (x.follow u) := by
  obtain ⟨-, hthread, hoffset, -⟩ := h
  rw [← hthread, ← hoffset] at hu
  exact .move hu

/-- A trail that begins at an offset, or has just come there. -/
inductive Begins (source : List Node) (roots : List Frame) (i : Nat) : List Nat → Trail → Prop
  | seed {pattern : Nat} {root : Frame} (hi : i < source.length)
      (hroot : roots[pattern]? = some root) :
      Begins source roots i [i, pattern] (.seed i pattern root)
  | past {a : List Nat} {x : Trail} {input : Node} {u : Thread}
      (hx : trailAt source roots a = some x) (ho : x.offset + 1 = i)
      (hi : source[x.offset]? = some input) (hu : x.thread.consume input = .ok (some u)) :
      Begins source roots i (a ++ [0]) (x.past u)

/-- Visits in order, by the first trails to all places at which any begins that has not returned. -/
structure Leads (source : List Node) (roots : List Frame) (i : Nat) (visits : List Visit) :
    Prop where
  sorted : visits.Pairwise Visit.Before
  onTrail : ∀ q ∈ visits, ∃ x, OnTrail source roots i q x ∧ x.left = []
  first : ∀ a x, Begins source roots i a x → x.returned = false →
    ∃ q ∈ visits, q.thread.place = x.thread.place ∧ Route.Le q.address a

/-- From where a lazy repetition has been left, a trail returns if it enters it again. -/
theorem returned_of_left {p : Visit} (hp : OnTrail source roots i p x) (hlazy : p.thread.LazyEnd)
    {r : List Nat} (hy : trailAt source roots (p.address ++ 0 :: r) = some y) (hyi : y.offset = i)
    {u : Thread} (hin : y.thread.outer.length < u.outer.length)
    (hs : u.top.shape.isRepetition = true) (hposition : u.position = p.thread.position) :
    (y.follow u).returned = true := by
  obtain ⟨hx, hthread, hoffset, -⟩ := hp
  obtain ⟨v, hv, -, -, hleft⟩ := exists_branch hx hy (hyi.trans hoffset.symm)
  rw [hthread] at hv
  have hmem : p.thread.position ∈ (x.follow v).left := by
    rcases hlazy.branch_iff.mp hv with ⟨-, parent, outer, ho, rfl⟩ | ⟨hne, -⟩
    · have hout : outer.length < x.thread.outer.length := by
        rw [hthread, ho]
        exact Nat.lt_succ_self _
      have hshape : x.thread.top.shape = .repetition false := hthread ▸ hlazy.2.2
      rw [Trail.follow_out hout, if_pos hshape, hthread]
      exact .head _
    · cases hne
  have hcontains : y.left.contains u.position = true := by
    rw [hposition]
    exact List.contains_iff_mem.mpr (hleft hmem)
  rw [Trail.follow_in hin, hs, hcontains]
  exact Bool.or_true _

/-- All that a visit's trail has left since the last node, it has left by the first branch at an end
that was met. -/
def Traced (source : List Node) (roots : List Frame) (i : Nat) (visits : List Visit)
    (spawned : Set Visit) (v : Visit) (x : Trail) : Prop :=
  ∀ position ∈ x.left, ∃ p z, (p ∈ visits ∨ p ∈ spawned) ∧ OnTrail source roots i p z ∧
    p.thread.LazyEnd ∧ p.thread.position = position ∧ ∃ r, v.address = p.address ++ 0 :: r

/-- What was left before, has been left still one branch on. -/
theorem Traced.snoc {w : Visit} {k : Nat} (h : Traced source roots i visits spawned w x)
    (haddress : v.address = w.address ++ [k]) (hleft : y.left = x.left) :
    Traced source roots i visits spawned v y := by
  intro position hmem
  rw [hleft] at hmem
  obtain ⟨p, z, hp, hz, hlazy, hposition, r, hr⟩ := h position hmem
  refine ⟨p, z, hp, hz, hlazy, hposition, r ++ [k], ?_⟩
  rw [haddress, hr, List.append_assoc]
  rfl

/-- A lazy repetition is left by the first branch at its end. -/
theorem Traced.leave {w : Visit} (h : Traced source roots i visits spawned w x)
    (hw : w ∈ visits ∨ w ∈ spawned) (hx : OnTrail source roots i w x) (hlazy : w.thread.LazyEnd)
    (haddress : v.address = w.address ++ [0]) (hleft : y.left = w.thread.position :: x.left) :
    Traced source roots i visits spawned v y := by
  intro position hmem
  rw [hleft] at hmem
  rcases List.mem_cons.mp hmem with rfl | hmem
  · exact ⟨w, x, hw, hx, hlazy, rfl, [], haddress⟩
  · exact h.snoc (y := x) haddress rfl position hmem

section Settle
variable (hroots : Rooted roots) (hproductive : Productive roots)
  (hdistinct : Distinct source roots) (hleads : Leads source roots i visits)
  (hexplored : Explored i (i == source.length) ∅ ∅ settled visits spawned waiting ends)
include hexplored

/-- What takes the place of a branch was spawned no later. -/
theorem exists_spawned (hv : v ∈ visits ∨ v ∈ spawned) {k : Nat} {u : Thread}
    (hu : v.thread.Branch i (i == source.length) k u) :
    ∃ g ∈ spawned, g.thread.digest = u.digest ∧ ∃ p, (p ∈ visits ∨ p ∈ spawned) ∧
      ∃ c, p.Spawns i (i == source.length) c g ∧ Route.Le p.address v.address ∧
        (p.address = v.address → c ≤ k) :=
  (hexplored.closed v hv k u hu).resolve_left (by simp)

include hroots

/-- A trail that has left a lazy repetition does not enter it again, as the second branch at its end
has been spawned together with the first one. -/
theorem position_not_mem_left (hx : OnTrail source roots i v x)
    (hleft : Traced source roots i visits spawned v x) {g : Visit} (hg : g ∈ spawned) {k : Nat}
    (hspawn : v.Spawns i (i == source.length) k g)
    (hin : v.thread.outer.length < g.thread.outer.length)
    (hs : g.thread.top.shape.isRepetition = true) : g.thread.position ∉ x.left := by
  intro hmem
  obtain ⟨p, z, hp, hpz, hlazy, hposition, r, hr⟩ := hleft _ hmem
  have hrestart : p.thread.Branch i (i == source.length) 1 p.thread.restart :=
    hlazy.branch_iff.mpr (.inr ⟨rfl, rfl⟩)
  obtain ⟨g', hg', hdigest, p', hp', c, hc, hle, -⟩ := exists_spawned hexplored hp hrestart
  have hzreached := hpz.reached
  have hxreached := hx.reached
  obtain ⟨hz, hzthread, hzoffset, -⟩ := hpz
  obtain ⟨hxv, hxthread, hxoffset, -⟩ := hx
  have hwalk := (walk_of_trailAt hz (hr ▸ hxv) (hxoffset.trans hzoffset.symm)).1
  rw [hzthread, hxthread, hzoffset] at hwalk
  have hplace : g.thread.place = p.thread.restart.place := by
    have hstart := hspawn.2.follows.start_eq.trans (Thread.start_eq_of_walk hwalk)
    have hpattern := hspawn.2.follows.pattern_eq.trans (Thread.pattern_eq_of_walk hwalk)
    obtain ⟨root, hroot, hgwithin⟩ := (hxreached.follows hspawn.2.follows).placed hroots
    obtain ⟨root', hroot', hpwithin⟩ := (hzreached.follows hrestart.follows).placed hroots
    rw [hpattern] at hroot
    cases hroot.symm.trans hroot'
    exact Thread.place_eq_of_position hpwithin hgwithin hstart hpattern
      (hspawn.2.follows.index_eq_zero hin hs) hposition.symm
  obtain rfl := hexplored.apart g' hg' g hg
    (hdigest.trans (Thread.digest_eq_of_place_eq hplace).symm)
  have haddress : p'.address = v.address :=
    List.append_inj_left' (hc.1.symm.trans hspawn.1) rfl
  rw [haddress, hr] at hle
  exact Route.not_le_append (List.cons_ne_nil _ _) hle

include hleads

/-- No visit is by a trail that has returned. -/
theorem onTrail_of_met (hv : v ∈ visits ∨ v ∈ spawned) :
    ∃ x, OnTrail source roots i v x ∧ Traced source roots i visits spawned v x := by
  refine hexplored.induct (Q := fun v =>
    ∃ x, OnTrail source roots i v x ∧ Traced source roots i visits spawned v x) ?_ ?_ v hv
  · intro v hv
    obtain ⟨x, hx, hleft⟩ := hleads.onTrail v hv
    refine ⟨x, hx, ?_⟩
    unfold Traced
    rw [hleft]
    exact List.forall_mem_nil _
  · rintro w hw ⟨x, hx, hleft⟩ v hg k hspawn
    have hgoes := hx.goes hspawn.2
    obtain ⟨hxw, hthread, hoffset, hreturned⟩ := id hx
    have htrail : trailAt source roots v.address = some (x.follow v.thread) :=
      hspawn.1 ▸ trailAt_snoc hxw hgoes
    refine ⟨x.follow v.thread, ⟨htrail, rfl, hoffset, ?_⟩, ?_⟩
    · refine Bool.or_eq_false_iff.mpr ⟨hreturned, Bool.eq_false_iff.mpr fun hreturns => ?_⟩
      rw [Bool.and_eq_true, Bool.and_eq_true, decide_eq_true_iff, hthread] at hreturns
      obtain ⟨⟨hin, hs⟩, hmem⟩ := hreturns
      exact position_not_mem_left hroots hexplored hx hleft hg hspawn hin hs
        (List.contains_iff_mem.mp hmem)
    · by_cases hout : w.thread.top.shape = .repetition false ∧
          v.thread.outer.length < w.thread.outer.length
      · have hlazy := hspawn.2.follows.lazyEnd hout.2 hout.1
        have hgone : (x.follow v.thread).left = w.thread.position :: x.left := by
          rw [← hthread] at hout ⊢
          exact if_pos hout
        rcases hlazy.branch_iff.mp hspawn.2 with ⟨rfl, -⟩ | ⟨-, hrestart⟩
        · exact hleft.leave hw hx hlazy hspawn.1 hgone
        · rw [hrestart] at hout
          exact absurd hout.2 (Nat.lt_irrefl _)
      · apply hleft.snoc hspawn.1
        rw [← hthread] at hout
        exact if_neg hout

/-- A trail that leaves a lazy repetition at an end that was met, and comes by the place of its
start, returns there. -/
theorem returned_of_restart {p : Visit} {r : List Nat} {u w : Thread}
    (hp : p ∈ visits ∨ p ∈ spawned) (hlazy : p.thread.LazyEnd)
    (hwp : w.place = p.thread.restart.place)
    (hentered : w.outer = v.thread.top :: v.thread.outer)
    (hy : trailAt source roots (p.address ++ 0 :: r) = some y) (hyi : y.offset = i)
    (hyv : v.thread.place = y.thread.place) (hwu : w.place = u.place) :
    (y.follow u).returned = true := by
  obtain ⟨x, hx, -⟩ := onTrail_of_met hroots hleads hexplored hp
  obtain ⟨-, -, -, hyouter⟩ := Thread.place_eq_iff.mp hyv
  obtain ⟨-, -, hwtop, hwouter⟩ := Thread.place_eq_iff.mp hwu
  obtain ⟨-, -, hptop, hpouter⟩ := Thread.place_eq_iff.mp hwp
  have hin : y.thread.outer.length < u.outer.length := by
    rw [← hwouter, hentered, ← hyouter]
    exact Nat.lt_succ_self _
  have hshape : u.top.shape.isRepetition = true := by
    rw [← hwtop, hptop]
    exact congrArg Shape.isRepetition hlazy.2.2
  have hposition : u.position = p.thread.position := by
    unfold Thread.position
    rw [← hwouter, hpouter]
    rfl
  exact returned_of_left hx hlazy hy hyi hin hshape hposition

include hproductive

/-- A branch that comes to the place of one that was spawned earlier, but on the way to it, comes
later by all trails that do not return. -/
theorem le_snoc_of_prefix {p g : Visit} {c c' k : Nat} {r : List Nat} {u w : Thread}
    (hp : p ∈ visits ∨ p ∈ spawned) (hv : v ∈ visits ∨ v ∈ spawned)
    (haddress : v.address = p.address ++ c' :: r) (hspawn : p.Spawns i (i == source.length) c g)
    (hw : v.thread.Branch i (i == source.length) k w) (hwg : w.place = g.thread.place)
    (hy : trailAt source roots b = some y) (hyi : y.offset = i)
    (hyv : v.thread.place = y.thread.place) (hle : Route.Le v.address b)
    (hwu : w.place = u.place) (hreturned : (y.follow u).returned = false) :
    Route.Le (p.address ++ [c]) (b ++ [k]) := by
  obtain ⟨x, ⟨hx, hxthread, hxi, -⟩, -⟩ := onTrail_of_met hroots hleads hexplored hp
  obtain ⟨z, hvz, -⟩ := onTrail_of_met hroots hleads hexplored hv
  have hgoes := hvz.goes hw
  obtain ⟨hz, hzthread, hzi, -⟩ := hvz
  obtain ⟨v', hv', htrail, hwalk, -⟩ := exists_branch hx (haddress ▸ hz) (hzi.trans hxi.symm)
  rw [hxthread, hxi] at hv'
  rw [hzthread, hxi] at hwalk
  rcases Nat.lt_trichotomy c c' with hlt | rfl | hlt
  · have hbefore : Route.Before (p.address ++ [c]) v.address := by
      rw [haddress]
      exact Route.before_append_left.mpr (.inl hlt)
    have hlater : Route.Le (p.address ++ [c]) b := .inr (hbefore.trans_le hle)
    exact hlater.append [k]
  · -- the thread has come by the place of the visit before
    have hlater := trailAt_snoc hz hgoes
    have hroute : v.address ++ [k] = p.address ++ [c] ++ (r ++ [k]) := by
      rw [haddress]
      simp
    rw [hroute] at hlater
    have hne := place_ne_of_trailAt hroots hproductive htrail
      (List.append_ne_nil_of_right_ne_nil r (List.cons_ne_nil k [])) hlater (hzi.trans hxi.symm)
    obtain rfl := hv'.unique hspawn.2
    exact absurd hwg hne
  · obtain ⟨root, hroot, hwithin⟩ := placed_of_trailAt hroots hx
    rw [hxthread] at hwithin
    obtain ⟨hlazy, rfl, rfl, hentered⟩ := (hv'.fork hspawn.2 hlt).lazy
      (hproductive root (List.mem_of_getElem? hroot)) hwithin hv'.follows hwalk hw.follows hwg
    rw [haddress] at hle
    rcases hle.cases_zero with ⟨t, rfl⟩ | hlater
    · -- the trail has left the repetition too, and so it returns
      have hrestart : g.thread = p.thread.restart := by
        rcases hlazy.branch_iff.mp hspawn.2 with ⟨hne, -⟩ | ⟨-, hrestart⟩
        · cases hne
        · exact hrestart
      rw [hrestart] at hwg
      have hreturns :=
        returned_of_restart hroots hleads hexplored hp hlazy hwg hentered hy hyi hyv hwu
      exact Bool.noConfusion (hreturns.symm.trans hreturned)
    · exact hlater.append [k]

include hdistinct

/-- All that a trail comes to at an offset without returning, a visit comes to no later. -/
theorem exists_visit_le (hy : trailAt source roots b = some y) (hyi : y.offset = i)
    (hreturned : y.returned = false) :
    ∃ v, (v ∈ visits ∨ v ∈ spawned) ∧ v.thread.place = y.thread.place ∧ Route.Le v.address b := by
  refine trailAt_induct (P := fun b y => y.offset = i → y.returned = false → ∃ v,
    (v ∈ visits ∨ v ∈ spawned) ∧ v.thread.place = y.thread.place ∧ Route.Le v.address b) hy ?_ ?_
    hyi hreturned
  · rintro start pattern root hs hroot rfl hreturned
    obtain ⟨q, hq, hplace, hle⟩ := hleads.first _ _ (.seed hs hroot) hreturned
    exact ⟨q, .inl hq, hplace, hle⟩
  · intro b y k z hy ih hgoes hzi hreturned
    cases hgoes with
    | consume hi hu =>
      obtain ⟨q, hq, hplace, hle⟩ := hleads.first _ _ (.past hy hzi hi hu) hreturned
      exact ⟨q, .inl hq, hplace, hle⟩
    | @move _ u hu =>
      have hyi : y.offset = i := hzi
      obtain ⟨v, hv, hvy, hle⟩ := ih hyi ((Trail.Goes.move hu).returned_of hreturned)
      rw [hyi] at hu
      obtain ⟨w, hw, hwu⟩ := hu.of_place_eq hvy
      obtain ⟨g, hg, hdigest, p, hp, c, hspawn, hpv, hck⟩ := exists_spawned hexplored hv hw
      obtain ⟨x, hvx, -⟩ := onTrail_of_met hroots hleads hexplored hv
      obtain ⟨xg, hgx, -⟩ :=
        onTrail_of_met hroots hleads hexplored (.inr hg : g ∈ visits ∨ g ∈ spawned)
      have hwg : w.place = g.thread.place :=
        hdistinct (hvx.reached.follows hw.follows) hgx.reached hdigest.symm
      obtain ⟨hx, hxthread, hxi, -⟩ := hvx
      refine ⟨g, .inr hg, hwg.symm.trans hwu, ?_⟩
      rw [hspawn.1]
      rcases hpv with ⟨r, hr⟩ | hbefore
      · cases r with
        | cons c' r =>
          exact le_snoc_of_prefix hroots hproductive hleads hexplored hp hv hr.symm hspawn hw hwg hy
            hyi hvy hle hwu hreturned
        | nil =>
          rw [List.append_nil] at hr
          rw [← hr] at hle hx
          rcases eq_or_before_of_le hroots hproductive hx hy (hyi.trans hxi.symm)
            (by rw [hxthread, hvy]) hle with rfl | hbefore
          · exact Route.le_snoc.mpr (hck hr)
          · exact .inr (hbefore.append [c] [k])
      · exact .inr ((hbefore.trans_le hle).append [c] [k])

end Settle

end Homoicon.Search
