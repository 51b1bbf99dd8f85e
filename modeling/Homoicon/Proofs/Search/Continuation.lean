import Homoicon.Proofs.Search.Bindings

/-! A search over more nodes reports first what a search over the first of them does. -/
namespace Homoicon

namespace Pattern

mutual

/-- The anchors in a pattern, by the side of the source that they ask for. -/
def anchors : Pattern → List Bool
  | group _ _ items => anchorsAll items
  | anchor start => [start]
  | .test _ => []
  | faulty _ => []

def anchorsAll : List Pattern → List Bool
  | [] => []
  | item :: items => anchors item ++ anchorsAll items

end

theorem anchors_subset {items : List Pattern} {item : Pattern} (h : item ∈ items) :
    item.anchors ⊆ anchorsAll items := by
  induction items with
  | nil => cases h
  | cons first items ih =>
    rw [anchorsAll]
    rcases List.mem_cons.mp h with rfl | h
    · exact List.subset_append_left _ _
    · exact List.Subset.trans (ih h) (List.subset_append_right _ _)

/-- Nothing in a pattern asks for the end of the source. -/
def Endless (p : Pattern) : Prop := false ∉ p.anchors

theorem Endless.item {mark : UInt64} {shape : Shape} {items : List Pattern} {item : Pattern}
    (h : (group mark shape items).Endless) (hitem : item ∈ items) : item.Endless :=
  fun hend => h (anchors_subset hitem hend)

end Pattern

namespace Blueprint
open Pattern (ofNode ofNodes)

variable {marks : Nat → UInt64}

mutual

/-- The anchors in a built pattern, by the side of the source that they ask for. -/
def anchors : Blueprint → List Bool
  | sequence items => anchorsAll items
  | alternatives items => anchorsAll items
  | optional items _ => anchorsAll items
  | repeated items _ => anchorsAll items
  | anchor start => [start]
  | matchType _ => []
  | matchValue _ => []
  | capture _ inner => anchors inner

def anchorsAll : List Blueprint → List Bool
  | [] => []
  | item :: items => anchors item ++ anchorsAll items

end

mutual

theorem anchors_ofNode (b : Blueprint) (serial : Nat) :
    (ofNode marks serial b.node).anchors = b.anchors := by
  cases b with
  | sequence items => exact anchorsAll_ofNodes items _
  | alternatives items => exact anchorsAll_ofNodes items _
  | optional items greedy => exact anchorsAll_ofNodes items _
  | repeated items greedy => exact anchorsAll_ofNodes items _
  | anchor start => rfl
  | matchType kind => rfl
  | matchValue target => rfl
  | capture name inner =>
    rw [ofNode_capture]
    exact (List.append_nil _).trans (anchors_ofNode inner _)

theorem anchorsAll_ofNodes (bs : List Blueprint) (serial : Nat) :
    Pattern.anchorsAll (ofNodes marks serial (nodes bs)) = anchorsAll bs := by
  cases bs with
  | nil => rfl
  | cons b bs =>
    have hb := anchors_ofNode b serial
    have hbs := anchorsAll_ofNodes bs (serial + b.node.size)
    rw [nodes, ofNodes, Pattern.anchorsAll, anchorsAll, hb, hbs]

end

theorem anchors_rootFrame (b : Blueprint) (marks : Nat → UInt64) :
    (Search.rootFrame marks b.node).group.anchors = b.anchors := by
  obtain ⟨mark, hframe⟩ := b.rootFrame_node marks
  rw [hframe]
  refine (anchorsAll_ofNodes b.parts 1).trans ?_
  cases b with
  | sequence items => rfl
  | _ => exact List.append_nil _

end Blueprint

/-- A record made at an offset or before: it covers nodes up to there, and if it stands for a single
node, that node has been consumed unless it is `awaited`. -/
structure Record.Made (index : Nat) (awaited : Prop) (r : Record) : Prop where
  start_le : r.start ≤ index
  stop_le : r.start ≤ r.stop.getD r.start ∧ r.stop.getD r.start ≤ index
  single : r.single = true → r.start < index ∨ awaited

namespace Record.Made
variable {index : Nat} {awaited awaited' : Prop} {r : Record} {source : List Node}

theorem mono (h : r.Made index awaited) {later : Nat} (hle : index ≤ later)
    (hawaited : awaited → index < later ∨ awaited') : r.Made later awaited' where
  start_le := Nat.le_trans h.start_le hle
  stop_le := ⟨h.stop_le.1, Nat.le_trans h.stop_le.2 hle⟩
  single := fun hsingle => by
    rcases h.single hsingle with hlt | hawait
    · exact .inl (Nat.lt_of_lt_of_le hlt hle)
    · exact (hawaited hawait).imp_left (Nat.lt_of_le_of_lt h.start_le)

/-- What a record stands for is there, whatever nodes come after. -/
theorem binding?_append (h : r.Made index False) (hindex : index ≤ source.length)
    (more : List Node) : r.binding? (source ++ more) = r.binding? source := by
  unfold binding?
  split
  · next hsingle =>
    have hlt := (h.single hsingle).resolve_right id
    rw [List.getElem?_append_left (Nat.lt_of_lt_of_le hlt hindex)]
  · have hstop := Nat.le_trans h.stop_le.2 hindex
    have hlong : r.stop.getD r.start ≤ (source ++ more).length :=
      Nat.le_trans hstop (by rw [List.length_append]; exact Nat.le_add_right _ _)
    dsimp only
    rw [if_pos ⟨h.stop_le.1, hlong⟩, if_pos ⟨h.stop_le.1, hstop⟩,
      List.take_append_of_le_length hstop]

end Record.Made

namespace Records
variable {name : String} {record : Record} {records : Records} {entry : String × Record}

theorem mem_of_mem_enter (h : entry ∈ enter name record records) :
    entry = (name, record) ∨ entry ∈ records := by
  fun_induction enter name record records with
  | case1 => exact .inl (List.mem_singleton.mp h)
  | case2 => exact (List.mem_cons.mp h).imp_right (.tail _)
  | case3 other earlier records _ ih =>
    rcases List.mem_cons.mp h with rfl | h
    · exact .inr (.head _)
    · exact (ih h).imp_right (.tail _)

theorem mem_of_mem_leave {stop : Nat} (h : entry ∈ leave name stop records) :
    entry ∈ records ∨ ∃ earlier, (name, earlier) ∈ records ∧
      entry = (name, { earlier with stop := some stop }) := by
  fun_induction leave name stop records with
  | case1 => cases h
  | case2 earlier records =>
    rcases List.mem_cons.mp h with rfl | h
    · exact .inr ⟨earlier, .head _, rfl⟩
    · exact .inl (.tail _ h)
  | case3 other earlier records _ ih =>
    rcases List.mem_cons.mp h with rfl | h
    · exact .inl (.head _)
    · rcases ih h with h | ⟨earlier, hmem, heq⟩
      · exact .inl (.tail _ h)
      · exact .inr ⟨earlier, .tail _ hmem, heq⟩

end Records

namespace Thread
variable {t u : Thread} {index : Nat} {atEnd : Bool}

/-- All that a thread has recorded was recorded at an offset or before. -/
def Recorded (index : Nat) (t : Thread) : Prop :=
  ∀ entry ∈ t.records, entry.2.Made index (t.awaitsInput = true)

/-- A capture of a single node is entered where a thread awaits that node. -/
theorem awaitsInput_enter {mark : UInt64} {shape : Shape} {items : List Pattern}
    (h : Pattern.isSingle items = true) : (t.enter mark shape items 0).awaitsInput = true := by
  unfold Pattern.isSingle at h
  split at h
  · exact h
  · cases h

theorem Recorded.follows (h : t.Recorded index) (hu : t.Follows index atEnd u) :
    u.Recorded index := by
  -- a thread that moves awaits no node, so its records of single nodes are complete
  have hmade : ∀ entry ∈ t.records, ∀ awaited, entry.2.Made index awaited :=
    fun entry hentry awaited => (h entry hentry).mono (Nat.le_refl _) fun hawait =>
      absurd (hu.awaitsInput_eq.symm.trans hawait) Bool.false_ne_true
  cases hu with
  | skip => exact fun entry hentry => hmade entry hentry _
  | anchor => exact fun entry hentry => hmade entry hentry _
  | restart => exact fun entry hentry => hmade entry hentry _
  | @enter mark shape items k hcur hk =>
    intro entry hentry
    cases shape with
    | capture name =>
      rcases Records.mem_of_mem_enter hentry with rfl | hentry
      · obtain rfl : k = 0 := by
          rcases hk with ⟨-, rfl⟩ | ⟨hchoice, -⟩
          · rfl
          · cases hchoice
        exact ⟨Nat.le_refl _, ⟨Nat.le_refl _, Nat.le_refl _⟩,
          fun hsingle => .inr (awaitsInput_enter (t := t) hsingle)⟩
      · exact hmade entry hentry _
    | _ => exact hmade entry hentry _
  | leave hcur ho =>
    intro entry hentry
    cases hshape : t.top.shape with
    | capture name =>
      rw [hshape] at hentry
      rcases Records.mem_of_mem_leave hentry with hentry | ⟨earlier, hearlier, rfl⟩
      · exact hmade entry hentry _
      · obtain ⟨hstart, -, hsingle⟩ := hmade _ hearlier _
        exact ⟨hstart, ⟨hstart, Nat.le_refl _⟩, hsingle⟩
    | _ =>
      rw [hshape] at hentry
      exact hmade entry hentry _

theorem Recorded.consume {input : Node} (h : t.Recorded index)
    (hu : t.consume input = .ok (some u)) : u.Recorded (index + 1) := by
  obtain ⟨-, -, -, rfl⟩ := consume_eq_some hu
  exact fun entry hentry =>
    (h entry hentry).mono (Nat.le_succ index) fun _ => .inl (Nat.lt_succ_self index)

/-- Where nothing asks for the end of the source, it does not matter whether it has come. -/
theorem move_atEnd (h : t.top.group.Endless) : t.move index true = t.move index false := by
  unfold move
  split
  · rfl
  · rfl
  · next start hcur =>
    have hstart : Pattern.Endless (.anchor start) := h.item (List.mem_of_getElem? hcur)
    cases start with
    | false => exact absurd (.head _) hstart
    | true => rfl
  · rfl
  · rfl

end Thread

namespace Search

theorem Placed.endless {roots : List Frame} {t : Thread} (h : Placed roots t)
    (hroots : ∀ root ∈ roots, root.group.Endless) : t.top.group.Endless := by
  obtain ⟨root, hroot, hwithin⟩ := h
  exact hwithin.inherit (fun _ _ _ hgroup _ hitem => hgroup.item hitem)
    (hroots root (List.mem_of_getElem? hroot))

end Search

/-- Threads that settle before others, followed by those. -/
def Settled.append (s later : Settled) : Settled :=
  ⟨s.waiting ++ later.waiting, s.matched ++ later.matched⟩

section Settle
variable {index : Nat} {atEnd : Bool} {seen parked : Digests} {threads later : List Thread}
  {settled : Settled}

/-- Threads settle before those behind them, to which they leave the places that they have met. -/
theorem settle_append (h : settle index atEnd seen parked threads = .ok settled)
    (later : List Thread) :
    ∃ seen' parked', settle index atEnd seen parked (threads ++ later) =
      settled.append <$> settle index atEnd seen' parked' later := by
  replace h := settles_of_settle h
  induction h with
  | @nil seen parked => exact ⟨seen, parked, (id_map _).symm⟩
  | dropped hw hp _ ih =>
    obtain ⟨seen', parked', hrest⟩ := ih
    exact ⟨seen', parked', (settle_cons_of_parked hw hp).trans hrest⟩
  | waiting hw hp _ ih =>
    obtain ⟨seen', parked', hrest⟩ := ih
    refine ⟨seen', parked', ?_⟩
    rw [List.cons_append, settle, if_pos hw, if_neg hp, hrest]
    cases settle index atEnd seen' parked' later <;> rfl
  | matched hw hm _ ih =>
    obtain ⟨seen', parked', hrest⟩ := ih
    refine ⟨seen', parked', ?_⟩
    rw [List.cons_append, settle, if_neg hw, hm]
    dsimp only
    rw [hrest]
    cases settle index atEnd seen' parked' later <;> rfl
  | moved hw hm _ ih =>
    obtain ⟨seen', parked', hrest⟩ := ih
    refine ⟨seen', parked', ?_⟩
    rw [List.cons_append, settle_cons_of_threads hw hm, ← List.append_assoc]
    exact hrest

/-- Threads of patterns that do not ask for the end of the source settle before it as they do there.
-/
theorem settle_atEnd {roots : List Frame} (hroots : ∀ root ∈ roots, root.group.Endless)
    (ht : ∀ t ∈ threads, Search.Placed roots t) :
    settle index true seen parked threads = settle index false seen parked threads := by
  fun_induction settle index true seen parked threads with
  | case1 => rw [settle]
  | case2 seen parked t rest hw hp ih =>
    rw [settle_cons_of_parked hw hp]
    exact ih fun u hu => ht u (.tail _ hu)
  | case3 seen parked t rest hw hp ih =>
    rw [settle, if_pos hw, if_neg hp, ih fun u hu => ht u (.tail _ hu)]
  | case4 seen parked t rest hw fault hm =>
    rw [Thread.move_atEnd ((ht t (.head _)).endless hroots)] at hm
    rw [settle, if_neg hw, hm]
  | case5 seen parked t rest hw hm ih =>
    rw [Thread.move_atEnd ((ht t (.head _)).endless hroots)] at hm
    rw [settle, if_neg hw, hm, ih fun u hu => ht u (.tail _ hu)]
  | case6 seen parked t rest hw next hm ih =>
    have ih := ih (forall_mem_kept (fun _ _ h hu => Search.Placed.follows h hu) ht hw hm)
    rw [Thread.move_atEnd ((ht t (.head _)).endless hroots)] at hm
    rw [settle_cons_of_threads hw hm]
    exact ih

end Settle

namespace Search
variable {source : List Node} {roots : List Frame} {i : Nat} {t : Thread} {live : List Thread}

theorem Reached.recorded (h : Reached source roots i t) : t.Recorded i := by
  refine h.induct (P := fun i t => t.Recorded i) (fun _ _ _ _ _ => List.forall_mem_nil _)
    fun i t j u ih hstep => ?_
  cases hstep with
  | move hu => exact ih.follows hu
  | consume _ hu => exact ih.consume hu

/-- A pattern that is done has the same match, whatever nodes come after. -/
theorem found_append (h : Reached source roots i t) (hdone : t.Done) (more : List Node) :
    found (source ++ more) i t = found source i t := by
  have hbinding : ∀ entry ∈ t.records,
      entry.2.binding? (source ++ more) = entry.2.binding? source := by
    intro entry hentry
    have hmade : entry.2.Made i False := (h.recorded entry hentry).mono (Nat.le_refl i)
      fun hawait => absurd (hdone.awaitsInput_eq.symm.trans hawait) Bool.false_ne_true
    exact hmade.binding?_append h.offset_le more
  refine congrArg (Match.mk t.pattern t.start i) (List.filterMap_congr fun entry hentry => ?_)
  exact congrArg (Option.map _) (hbinding entry hentry)

theorem map_found_append {threads : List Thread}
    (h : ∀ t ∈ threads, Reached source roots i t ∧ t.Done) (more : List Node) :
    threads.map (found (source ++ more) i) = threads.map (found source i) :=
  List.map_congr_left fun t ht => found_append (h t ht).1 (h t ht).2 more

/-- What a search reports over the nodes that are left comes first in what it reports over those and
more. -/
theorem run_append (hrooted : Rooted roots) (hroots : ∀ root ∈ roots, root.group.Endless)
    {more rest : List Node} {results longer : List (Match Nat)} (hrest : source.drop i = rest)
    (hi : i ≤ source.length) (hlive : ∀ t ∈ live, Reached source roots i t)
    (h : run none source roots i live rest = .ok results)
    (hlonger : run none (source ++ more) roots i live (rest ++ more) = .ok longer) :
    results <+: longer := by
  induction rest generalizing i live results longer with
  | nil =>
    obtain ⟨settled, hsettled, rfl⟩ := run_nil_eq_ok h
    have hend : (i == source.length) = true := by
      simpa using Nat.le_antisymm hi (List.drop_eq_nil_iff.mp hrest)
    obtain ⟨-, hmatched⟩ := settle_reached hend hlive hsettled
    rw [← map_found_append hmatched more]
    cases more with
    | nil =>
      rw [List.append_nil] at hlonger ⊢
      cases h.symm.trans hlonger
      exact List.prefix_refl _
    | cons input more =>
      obtain ⟨step, later, hstep, -, rfl⟩ := run_cons_eq_ok hlonger
      obtain ⟨both, -, hboth, -, rfl⟩ := advance_eq_ok hstep
      -- threads that are alive settle before new ones, and do not ask for the end
      rw [settle_atEnd hroots fun t ht => (hlive t ht).placed hrooted] at hsettled
      obtain ⟨seen, parked, happend⟩ := settle_append hsettled (seeds roots i)
      obtain ⟨new, -, rfl⟩ := map_eq_ok.mp (happend.symm.trans hboth)
      refine List.IsPrefix.trans ?_ (List.prefix_append _ later)
      exact (List.prefix_append settled.matched new.matched).map _
  | cons input rest ih =>
    have hinput := getElem?_of_drop_eq_cons hrest
    obtain ⟨step, later, hstep, hlater, rfl⟩ := run_cons_eq_ok h
    obtain ⟨step', later', hstep', hlater', rfl⟩ := run_cons_eq_ok hlonger
    cases hstep.symm.trans hstep'
    obtain ⟨hmatched, hnext⟩ := advance_sound hinput hlive hstep
    rw [map_found_append hmatched more]
    refine (List.prefix_append_right_inj _).mpr ?_
    exact ih (drop_succ_of_drop_eq_cons hrest) (List.getElem?_eq_some_iff.mp hinput).1 hnext
      hlater hlater'

end Search

end Homoicon
