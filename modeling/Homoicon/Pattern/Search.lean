import Homoicon.Pattern.Form
import Homoicon.Pattern.Settle

/-! All matches of patterns in a sequence of nodes. -/
namespace Homoicon

inductive Binding
  | one (node : Node)
  | many (nodes : List Node)

/-- A match of a pattern, by what its caller gave with it, over the nodes from `start` up to but not
including `stop`. -/
structure Match (α : Type) where
  payload : α
  start : Nat
  stop : Nat
  bindings : List (String × Binding)

inductive SearchFailure
  | budgetExceeded (offset states : Nat)
  | faulty (fault : PatternFault)
deriving DecidableEq, Repr

def SearchFailure.message : SearchFailure → String
  | budgetExceeded offset states =>
    s!"pattern matching gave up at offset {offset} with {states} live states"
  | faulty fault => fault.message

/-- The binding of a record, if the nodes that it names exist. -/
def Record.binding? (source : List Node) (record : Record) : Option Binding :=
  if record.single then (source[record.start]?).map .one
  else
    let stop := record.stop.getD record.start
    if record.start ≤ stop ∧ stop ≤ source.length then
      some (.many ((source.take stop).drop record.start))
    else none

namespace Search

/-- The group that stands for a whole pattern; anything but a sequence becomes a sequence of one. -/
def root (node : Node) : Node :=
  if node.kind = .patternSequence then node else Form.sequence [node]

def rootFrame (marks : Nat → UInt64) (node : Node) : Frame :=
  match Pattern.ofNode marks 0 (root node) with
  | .group mark shape items => ⟨mark, shape, items, 0⟩
  | pattern => ⟨0, .sequence, [pattern], 0⟩

def rootFrames (marks : Nat → Nat → UInt64) (patterns : List Node) : List Frame :=
  patterns.mapIdx fun n node => rootFrame (marks n) node

@[simp] theorem length_rootFrames (marks : Nat → Nat → UInt64) (patterns : List Node) :
    (rootFrames marks patterns).length = patterns.length :=
  List.length_mapIdx

/-- Marks by the places of nodes in their trees. -/
def serialMarks (_pattern serial : Nat) : UInt64 := .ofNat serial

/-- Fresh attempts at all patterns, in order. -/
def seeds (roots : List Frame) (index : Nat) : List Thread :=
  roots.mapIdx fun pattern frame => .seed index pattern frame

def found (source : List Node) (index : Nat) (t : Thread) : Match Nat where
  payload := t.pattern
  start := t.start
  stop := index
  bindings := t.records.filterMap fun (name, record) =>
    (record.binding? source).map fun binding => (name, binding)

/-- The threads that accept a node, past it. -/
def consumeAll (input : Node) : List Thread → Except PatternFault (List Thread)
  | [] => .ok []
  | t :: rest => do
    let next ← t.consume input
    let others ← consumeAll input rest
    .ok (next.toList ++ others)

def exceeds (budget : Option Nat) (states : Nat) : Bool := budget.any (· < states)

/-- The threads whose pattern was done before a node, and those that are alive after it. -/
structure Advance where
  matched : List Thread
  live : List Thread

/-- Runs the threads that are alive, and new ones, at an offset and over the node there. -/
def advance (roots : List Frame) (index : Nat) (live : List Thread) (input : Node) :
    Except PatternFault Advance := do
  let settled ← settle index false ∅ ∅ (live ++ seeds roots index)
  let consumed ← consumeAll input settled.waiting
  .ok ⟨settled.matched, (keepNew ∅ consumed).1⟩

/-- The matches that threads complete over the input from an offset on. -/
def run (budget : Option Nat) (source : List Node) (roots : List Frame) (index : Nat)
    (live : List Thread) : List Node → Except SearchFailure (List (Match Nat))
  | [] => do
    let settled ← (settle index true ∅ ∅ live).mapError .faulty
    .ok (settled.matched.map (found source index))
  | input :: rest => do
    let step ← (advance roots index live input).mapError .faulty
    if exceeds budget step.live.length then .error (.budgetExceeded index step.live.length)
    else do
      let later ← run budget source roots (index + 1) step.live rest
      .ok (step.matched.map (found source index) ++ later)

end Search

/-- All matches of patterns in a sequence of nodes, in the order in which they are completed. A
budget limits the threads that are alive after any node. Groups without a hash are known by the
addresses of their nodes, which may be any: `marks` has them by pattern and place in its tree. -/
def search {α : Type} (budget : Option Nat) (source : List Node) (patterns : List (Node × α))
    (marks : Nat → Nat → UInt64 := Search.serialMarks) :
    Except SearchFailure (List (Match α)) := do
  let roots := Search.rootFrames marks (patterns.map fun p => p.1)
  let found ← Search.run budget source roots 0 [] source
  .ok (found.filterMap fun m =>
    patterns[m.payload]?.map fun p => { m with payload := p.2 })

/-- Whether a match is better: it starts earlier, or it starts there too and is longer. -/
def Match.better {α : Type} (m n : Match α) : Bool :=
  m.start < n.start || (m.start == n.start && n.stop < m.stop)

/-- The best of several matches, the first one of those that no other is better than. -/
def bestMatch {α : Type} : List (Match α) → Option (Match α)
  | [] => none
  | m :: rest => some (rest.foldl (fun best m => if m.better best then m else best) m)

end Homoicon
