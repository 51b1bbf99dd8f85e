import Homoicon.Pattern

/-! Threads of the search: attempts at a pattern from one offset. -/
namespace Homoicon

structure Frame where
  mark : UInt64
  shape : Shape
  items : List Pattern
  index : Nat

namespace Frame

/-- The item to run; there is none when the group is done. -/
def current (f : Frame) : Option Pattern := f.items[f.index]?

/-- Past the current item. One branch of a choice finishes it. -/
def advance (f : Frame) : Frame :=
  match f.shape with
  | .choice => { f with index := f.items.length }
  | _ => { f with index := f.index + 1 }

/-- The word for a place in a group. A capture's name counts as its first item. -/
def digest (f : Frame) : UInt64 :=
  let place := match f.shape with
    | .capture _ => f.index + 1
    | _ => f.index
  f.mark ^^^ Digest.rotateLeft (.ofNat place) 19

end Frame

/-- What a capture has recorded: where it was entered, where it was left, and whether it stands for
the single node at its start. -/
structure Record where
  start : Nat
  stop : Option Nat
  single : Bool
deriving DecidableEq, Repr

/-- Records by capture name; each name occurs once. -/
abbrev Records := List (String × Record)

namespace Records

/-- The record of a capture that has just been entered replaces an earlier one of its name. -/
def enter (name : String) (record : Record) : Records → Records
  | [] => [(name, record)]
  | (other, earlier) :: records =>
    if other = name then (name, record) :: records
    else (other, earlier) :: enter name record records

/-- Closes the record of a name. -/
def leave (name : String) (stop : Nat) : Records → Records
  | [] => []
  | (other, record) :: records =>
    if other = name then (name, { record with stop := some stop }) :: records
    else (other, record) :: leave name stop records

@[simp] theorem lookup_enter (name : String) (record : Record) (records : Records) :
    (enter name record records).lookup name = some record := by
  fun_induction enter name record records with
  | case1 => simp
  | case2 => simp
  | case3 other earlier records h ih =>
    have h' : (name == other) = false := by simpa using fun e => h e.symm
    simp [List.lookup_cons, h', ih]

theorem lookup_enter_of_ne {name other : String} (record : Record) (records : Records)
    (h : other ≠ name) : (enter name record records).lookup other = records.lookup other := by
  have h' : (other == name) = false := by simpa using h
  fun_induction enter name record records with
  | case1 => simp [List.lookup_cons, h']
  | case2 earlier records => simp [List.lookup_cons, h']
  | case3 key earlier records _ ih => simp [List.lookup_cons, ih]

theorem lookup_leave (name : String) (stop : Nat) (records : Records) :
    (leave name stop records).lookup name =
      (records.lookup name).map fun record => { record with stop := some stop } := by
  fun_induction leave name stop records with
  | case1 => rfl
  | case2 record records => simp
  | case3 other record records h ih =>
    have h' : (name == other) = false := by simpa using fun e => h e.symm
    simp [List.lookup_cons, h', ih]

theorem lookup_leave_of_ne {name other : String} (stop : Nat) (records : Records)
    (h : other ≠ name) : (leave name stop records).lookup other = records.lookup other := by
  have h' : (other == name) = false := by simpa using h
  fun_induction leave name stop records with
  | case1 => rfl
  | case2 record records => simp [List.lookup_cons, h']
  | case3 key record records _ ih => simp [List.lookup_cons, ih]

end Records

/-- An attempt at the pattern of a given index from the offset `start`: the innermost open group,
the groups around it from the inside out, and what the captures have recorded. -/
structure Thread where
  start : Nat
  pattern : Nat
  top : Frame
  outer : List Frame
  records : Records

/-- What becomes of a thread that consumes nothing: its pattern is done, or others take its place in
order of priority. -/
inductive Move
  | matched
  | threads (next : List Thread)

namespace Thread

def seed (start pattern : Nat) (root : Frame) : Thread := ⟨start, pattern, root, [], []⟩

/-- The word for a thread's place in its attempt. What it has recorded does not count. -/
def digest (t : Thread) : UInt64 :=
  Digest.mixPair
    ((t.top :: t.outer).foldr (fun frame hash => Digest.mixPair hash frame.digest) 0 ^^^
      Digest.rotateLeft (.ofNat t.start) 22)
    (.ofNat t.pattern)

/-- Whether the next thing a thread does is to consume a node. -/
def awaitsInput (t : Thread) : Bool := (t.top.current.map Pattern.isTest).getD false

def pass (t : Thread) : Thread := { t with top := t.top.advance }

/-- Out of the innermost group, which `parent` holds. -/
def leave (t : Thread) (parent : Frame) (outer : List Frame) : Thread :=
  { t with top := parent.advance, outer }

def restart (t : Thread) : Thread := { t with top := { t.top with index := 0 } }

def enter (t : Thread) (mark : UInt64) (shape : Shape) (items : List Pattern) (index : Nat) :
    Thread :=
  { t with top := ⟨mark, shape, items, index⟩, outer := t.top :: t.outer }

/-- What follows the end of the innermost group. -/
def exits (t : Thread) (index : Nat) : Move :=
  match t.outer with
  | [] => .matched
  | parent :: outer =>
    let left := t.leave parent outer
    match t.top.shape with
    | .sequence | .choice | .optional _ => .threads [left]
    | .repetition greedy => .threads (if greedy then [t.restart, left] else [left, t.restart])
    | .capture name => .threads [{ left with records := left.records.leave name index }]

def entries (t : Thread) (mark : UInt64) (shape : Shape) (items : List Pattern) (index : Nat) :
    List Thread :=
  match shape with
  | .sequence | .repetition _ => [t.enter mark shape items 0]
  | .choice => (List.range items.length).map (t.enter mark shape items)
  | .optional greedy =>
    if greedy then [t.enter mark shape items 0, t.pass] else [t.pass, t.enter mark shape items 0]
  | .capture name =>
    let single := match items with
      | [item] => item.isTest
      | _ => false
    let entered := t.enter mark shape items 0
    [{ entered with records := entered.records.enter name ⟨index, none, single⟩ }]

/-- One step that consumes nothing, at an offset of the input. -/
def move (t : Thread) (index : Nat) (atEnd : Bool) : Except PatternFault Move :=
  match t.top.current with
  | none => .ok (t.exits index)
  | some (.group mark shape items) => .ok (.threads (t.entries mark shape items index))
  | some (.anchor start) =>
    .ok (.threads (if (if start then index == 0 else atEnd) then [t.pass] else []))
  | some (.test _) => .ok (.threads [t])
  | some (.faulty fault) => .error fault

def consume (t : Thread) (input : Node) : Except PatternFault (Option Thread) :=
  match t.top.current with
  | some (.test test) => (test.passes input).map fun passed => if passed then some t.pass else none
  | _ => .ok none

end Thread
end Homoicon
