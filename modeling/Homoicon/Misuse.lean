import Homoicon.Node

/-! Wrong kinds of node handed to an operation. -/
namespace Homoicon

inductive Misuse.Cause
  | expectedSymbol
  | notAMap (operation : String)
  | unhashable
  | taskInUse
deriving DecidableEq, Repr

structure Misuse where
  cause : Misuse.Cause
  location : Location
deriving DecidableEq, Repr

def Misuse.Cause.message : Misuse.Cause → String
  | expectedSymbol => "expected symbol"
  | notAMap operation => s!"cannot {operation} non-map"
  | unhashable => "unhashable object"
  | taskInUse => "tried to reuse an in-use task"

namespace Misuse

def message (m : Misuse) : String := m.cause.message

def display (m : Misuse) : String := s!"{m.location.display}: error: {m.message}"

end Misuse

/-- The text of a symbol, for callers that need a name. -/
def Node.symbolName (node : Node) : Except Misuse String :=
  match node.kind.isSymbol, node.value with
  | true, .text text => .ok text
  | _, _ => .error ⟨.expectedSymbol, node.location⟩

end Homoicon
