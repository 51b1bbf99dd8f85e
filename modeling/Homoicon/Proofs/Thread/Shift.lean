import Homoicon.Proofs.Thread.Sound

/-! Threads over the rest of a source do what they would do over all of it, further on. -/
namespace Homoicon

namespace Pattern

mutual

/-- Nothing in a pattern asks for the start of the source. -/
def Unanchored : Pattern → Prop
  | group _ _ items => UnanchoredAll items
  | anchor start => start = false
  | .test _ => True
  | faulty _ => True

def UnanchoredAll : List Pattern → Prop
  | [] => True
  | item :: items => Unanchored item ∧ UnanchoredAll items

end

theorem unanchoredAll_iff {items : List Pattern} :
    UnanchoredAll items ↔ ∀ item ∈ items, item.Unanchored := by
  induction items with
  | nil => simp [UnanchoredAll]
  | cons item items ih => simp [UnanchoredAll, ih]

end Pattern

namespace Blueprint
open Pattern (ofNode ofNodes)

variable {marks : Nat → UInt64}

mutual

/-- No anchor in a pattern is one for the start of the source. -/
def Unanchored : Blueprint → Prop
  | sequence items => UnanchoredAll items
  | alternatives items => UnanchoredAll items
  | optional items _ => UnanchoredAll items
  | repeated items _ => UnanchoredAll items
  | anchor start => start = false
  | matchType _ => True
  | matchValue _ => True
  | capture _ inner => Unanchored inner

def UnanchoredAll : List Blueprint → Prop
  | [] => True
  | item :: items => Unanchored item ∧ UnanchoredAll items

end

mutual

theorem unanchored_ofNode (b : Blueprint) (serial : Nat) (h : b.Unanchored) :
    (ofNode marks serial b.node).Unanchored := by
  cases b with
  | sequence items => exact unanchoredAll_ofNodes items _ h
  | alternatives items => exact unanchoredAll_ofNodes items _ h
  | optional items greedy => exact unanchoredAll_ofNodes items _ h
  | repeated items greedy => exact unanchoredAll_ofNodes items _ h
  | anchor start => exact h
  | matchType kind => exact trivial
  | matchValue target => exact trivial
  | capture name inner =>
    rw [ofNode_capture]
    exact ⟨unanchored_ofNode inner _ h, trivial⟩

theorem unanchoredAll_ofNodes (bs : List Blueprint) (serial : Nat) (h : UnanchoredAll bs) :
    Pattern.UnanchoredAll (ofNodes marks serial (nodes bs)) := by
  cases bs with
  | nil => exact trivial
  | cons b bs => exact ⟨unanchored_ofNode b _ h.1, unanchoredAll_ofNodes bs _ h.2⟩

end

theorem unanchored_rootFrame (b : Blueprint) (h : b.Unanchored) :
    (Search.rootFrame marks b.node).group.Unanchored := by
  have hparts : UnanchoredAll b.parts := by
    cases b with
    | sequence items => exact h
    | _ => exact ⟨h, trivial⟩
  obtain ⟨mark, hframe⟩ := b.rootFrame_node marks
  rw [hframe]
  exact unanchoredAll_ofNodes b.parts 1 hparts

end Blueprint

theorem Frame.Within.unanchored {root : Pattern} {f : Frame} {outer : List Frame}
    (h : f.Within root outer) (hroot : root.Unanchored) : f.group.Unanchored :=
  h.inherit (fun _ _ _ hgroup => Pattern.unanchoredAll_iff.mp hgroup) hroot

/-- A record made after that many nodes more. -/
def Record.shift (d : Nat) (r : Record) : Record :=
  { r with start := r.start + d, stop := r.stop.map (· + d) }

/-- The nodes after an offset are the same, whether the ones before are there or not. -/
theorem Record.binding?_shift {source : List Node} {d : Nat} (hd : d ≤ source.length) (r : Record) :
    (r.shift d).binding? source = r.binding? (source.drop d) := by
  obtain ⟨start, stop, single⟩ := r
  cases single with
  | true => simp [binding?, shift, Nat.add_comm]
  | false =>
    have hstop : (stop.map (· + d)).getD (start + d) = stop.getD start + d := by
      cases stop <;> rfl
    have hbound : start + d ≤ stop.getD start + d ∧ stop.getD start + d ≤ source.length ↔
        start ≤ stop.getD start ∧ stop.getD start ≤ source.length - d := by omega
    simp only [binding?, shift, hstop, hbound, Bool.false_eq_true, if_false, List.length_drop,
      List.take_drop, List.drop_drop, Nat.add_comm d]

namespace Records
variable {d : Nat} {name : String}

def shift (d : Nat) (records : Records) : Records :=
  records.map fun (name, record) => (name, record.shift d)

theorem shift_enter (record : Record) (records : Records) :
    (enter name record records).shift d = enter name (record.shift d) (records.shift d) := by
  fun_induction enter name record records with
  | case1 => rfl
  | case2 => simp [shift, enter]
  | case3 other earlier records h ih =>
    unfold shift at ih ⊢
    rw [List.map_cons, ih, List.map_cons, enter, if_neg h]

theorem shift_leave (stop : Nat) (records : Records) :
    (leave name stop records).shift d = leave name (stop + d) (records.shift d) := by
  fun_induction leave name stop records with
  | case1 => rfl
  | case2 => simp [shift, leave, Record.shift]
  | case3 other record records h ih =>
    unfold shift at ih ⊢
    rw [List.map_cons, ih, List.map_cons, leave, if_neg h]

end Records

def Move.map (f : Thread → Thread) : Move → Move
  | matched => matched
  | threads next => threads (next.map f)

namespace Thread

/-- A thread of a search with that many nodes more before its own ones, in which its pattern has
another index. -/
def shift (d pattern : Nat) (t : Thread) : Thread :=
  { t with start := t.start + d, pattern, records := t.records.shift d }

variable {t u : Thread} {d n index : Nat} {atEnd : Bool}

theorem place_shift_eq (h : t.place = u.place) : (t.shift d n).place = (u.shift d n).place := by
  rw [eq_of_place_eq h]
  rfl

theorem exits_shift : (t.shift d n).exits (index + d) = (t.exits index).map (·.shift d n) := by
  have houter : (t.shift d n).outer = t.outer := rfl
  have htop : (t.shift d n).top = t.top := rfl
  unfold exits
  rw [houter, htop]
  cases t.outer with
  | nil => rfl
  | cons parent outer =>
    cases t.top.shape with
    | repetition greedy => cases greedy <;> rfl
    | capture name => simp [Move.map, shift, leave, Records.shift_leave]
    | _ => rfl

theorem entries_shift (mark : UInt64) (shape : Shape) (items : List Pattern) :
    (t.shift d n).entries mark shape items (index + d) =
      (t.entries mark shape items index).map (·.shift d n) := by
  cases shape with
  | choice => simp [entries, Function.comp_def, shift, enter]
  | optional greedy => cases greedy <;> rfl
  | capture name => simp [entries, shift, enter, Records.shift_enter, Record.shift]
  | _ => rfl

/-- A thread moves in the same way further on, unless it asks for the start of the source. -/
theorem move_shift (h : t.top.group.Unanchored) :
    (t.shift d n).move (index + d) atEnd = (t.move index atEnd).map (Move.map (·.shift d n)) := by
  have htop : (t.shift d n).top = t.top := rfl
  unfold move
  rw [htop]
  cases hcur : t.top.current with
  | none => exact congrArg _ exits_shift
  | some p =>
    have hp := Pattern.unanchoredAll_iff.mp h p (List.mem_of_getElem? hcur)
    cases p with
    | group mark shape items =>
      dsimp only
      rw [entries_shift]
      rfl
    | anchor start =>
      obtain rfl : start = false := hp
      cases atEnd <;> rfl
    | test condition => rfl
    | faulty fault => rfl

theorem consume_shift (input : Node) :
    (t.shift d n).consume input = (t.consume input).map (Option.map (·.shift d n)) := by
  have htop : (t.shift d n).top = t.top := rfl
  unfold consume
  rw [htop]
  cases t.top.current with
  | none => rfl
  | some p =>
    cases p with
    | test condition =>
      dsimp only
      cases condition.passes input with
      | error fault => rfl
      | ok passed => cases passed <;> rfl
    | _ => rfl

theorem Follows.shift (h : t.Follows index atEnd u) (ht : t.top.group.Unanchored) :
    (t.shift d n).Follows (index + d) atEnd (u.shift d n) := by
  obtain ⟨next, hmove, hu⟩ := h.mem_move
  have hshift : (t.shift d n).move (index + d) atEnd = .ok (.threads (next.map (·.shift d n))) := by
    rw [move_shift ht, hmove]
    rfl
  exact follows_of_mem_move h.awaitsInput_eq hshift (List.mem_map_of_mem hu)

/-- A step over the rest of a source is one over all of it. -/
theorem Step.shift {source : List Node} {i j : Nat} (h : Step (source.drop d) (i, t) (j, u))
    (hd : d ≤ source.length) (ht : t.top.group.Unanchored) :
    Step source (i + d, t.shift d n) (j + d, u.shift d n) := by
  cases h with
  | move h =>
    have hend : (i == (source.drop d).length) = (i + d == source.length) := by
      rw [Bool.eq_iff_iff, beq_iff_eq, beq_iff_eq, List.length_drop]
      omega
    rw [hend] at h
    exact .move (h.shift ht)
  | @consume _ _ _ input hi h =>
    rw [List.getElem?_drop, Nat.add_comm] at hi
    have hconsume : (t.shift d n).consume input = .ok (some (u.shift d n)) := by
      rw [consume_shift, h]
      rfl
    rw [Nat.add_right_comm]
    exact .consume hi hconsume

end Thread

/-- A match of a search with that many nodes more before its own ones. -/
def Match.shift {α β : Type} (d : Nat) (payload : β) (m : Match α) : Match β :=
  { payload, start := m.start + d, stop := m.stop + d, bindings := m.bindings }

namespace Search
variable {source : List Node} {d n i : Nat} {t : Thread}

theorem found_shift (hd : d ≤ source.length) (t : Thread) :
    found source (i + d) (t.shift d n) = (found (source.drop d) i t).shift d n := by
  have hbindings : (found source (i + d) (t.shift d n)).bindings =
      (found (source.drop d) i t).bindings := by
    unfold found Thread.shift Records.shift
    simp only [List.filterMap_map, Function.comp_def, Record.binding?_shift hd]
  exact congrArg (Match.mk n (t.start + d) (i + d)) hbindings

end Search
end Homoicon
