import Homoicon.Misuse

/-! Patterns as the search runs them. -/
namespace Homoicon

inductive PatternFault
  | notAPattern (kind : Kind) (location : Location)
  | anchorWithoutSide (location : Location)
  | valueWithoutTarget (location : Location)
  | captureWithoutName (location : Location)
  | malformedCapture (misuse : Misuse)
deriving DecidableEq, Repr

def PatternFault.message : PatternFault → String
  | notAPattern kind location => s!"non-pattern node {kind.name} in pattern at {location.display}"
  | anchorWithoutSide location => s!"anchor without a start/end flag at {location.display}"
  | valueWithoutTarget location => s!"match-value pattern without a target at {location.display}"
  | captureWithoutName location => s!"capture without a name at {location.display}"
  | malformedCapture misuse => s!"malformed capture: {misuse.display}"

/-- What an instruction asks of the one node that it consumes. -/
inductive Test
  | ofKind (kind : Option Kind)
  | ofValue (kind : Kind) (hash : Option UInt64)
  | faulty (fault : PatternFault)
deriving DecidableEq, Repr

/-- Whether a node passes. Nodes without a hash equal no other. -/
def Test.passes (input : Node) : Test → Except PatternFault Bool
  | ofKind kind => .ok (kind == some input.kind)
  | ofValue kind hash => .ok (input.kind == kind && input.hash.isSome && input.hash == hash)
  | faulty fault => .error fault

/-- How a group runs its items. -/
inductive Shape
  | sequence
  | choice
  | optional (greedy : Bool)
  | repetition (greedy : Bool)
  | capture (name : String)
deriving DecidableEq, Repr

/-- A pattern. The mark of a group tells it from the other groups of its pattern; a node that is no
pattern fails when it is run. -/
inductive Pattern
  | group (mark : UInt64) (shape : Shape) (items : List Pattern)
  | anchor (start : Bool)
  | test (test : Test)
  | faulty (fault : PatternFault)

namespace Pattern

mutual

/-- Reads a node as a pattern. Groups are marked by their hashes, and where they have none by
`marks`, which tells the nodes of a tree by their place in it, as `serial` counts them. -/
def ofNode (marks : Nat → UInt64) (serial : Nat) : Node → Pattern
  | ⟨kind, children, value, _, location, hash, _⟩ =>
    let mark := hash.getD (marks serial)
    let items := ofNodes marks (serial + 1) children
    match kind with
    | .patternSequence => group mark .sequence items
    | .patternAlternatives => group mark .choice items
    | .patternOptional => group mark (.optional (value.flag?.getD true)) items
    | .patternRepeat => group mark (.repetition (value.flag?.getD true)) items
    | .patternCapture =>
      match children.head?.map Node.symbolName with
      | none => faulty (.captureWithoutName location)
      | some (.error misuse) => faulty (.malformedCapture misuse)
      | some (.ok name) => group mark (.capture name) items.tail
    | .patternAnchor =>
      match value.flag? with
      | none => faulty (.anchorWithoutSide location)
      | some start => anchor start
    | .patternMatchType => test (.ofKind value.kind?)
    | .patternMatchValue =>
      match children.head? with
      | none => test (.faulty (.valueWithoutTarget location))
      | some target => test (.ofValue target.kind target.hash)
    | _ => faulty (.notAPattern kind location)

def ofNodes (marks : Nat → UInt64) (serial : Nat) : List Node → List Pattern
  | [] => []
  | node :: nodes => ofNode marks serial node :: ofNodes marks (serial + node.size) nodes

end

/-- Whether a pattern consumes exactly one node by itself. -/
def isTest : Pattern → Bool
  | test _ => true
  | _ => false

end Pattern
end Homoicon
