import Homoicon.Pattern.Form
import Mathlib.Logic.Relation

/-! Patterns as they are built, and the spans of nodes that they derive. -/
namespace Homoicon

/-- A pattern by the constructors that made it. -/
inductive Blueprint
  | sequence (items : List Blueprint)
  | alternatives (items : List Blueprint)
  | optional (items : List Blueprint) (greedy : Bool)
  | repeated (items : List Blueprint) (greedy : Bool)
  | anchor (start : Bool)
  | matchType (kind : Kind)
  | matchValue (target : Node)
  | capture (name : String) (inner : Blueprint)

namespace Blueprint

mutual

def node : Blueprint → Node
  | sequence items => Form.sequence (nodes items)
  | alternatives items => Form.alternatives (nodes items)
  | optional items greedy => Form.optional (nodes items) greedy
  | repeated items greedy => Form.repeated (nodes items) greedy
  | anchor start => Form.anchor start
  | matchType kind => Form.matchType kind
  | matchValue target => Form.matchValue target
  | capture name inner => Form.capture name inner.node

def nodes : List Blueprint → List Node
  | [] => []
  | item :: items => item.node :: nodes items

end

mutual

/-- Which nodes of a source a pattern matches, from an offset up to another. Greed decides what is
tried first and so has no say here. -/
def Derives (source : List Node) : Blueprint → Nat → Nat → Prop
  | sequence items => DerivesAll source items
  | alternatives items => DerivesAny source items
  | optional items _ => fun i j => i = j ∨ DerivesAll source items i j
  | repeated items _ => Relation.TransGen (DerivesAll source items)
  | anchor start => fun i j => i = j ∧ i = if start then 0 else source.length
  | matchType kind => fun i j => j = i + 1 ∧ ∃ node, source[i]? = some node ∧ node.kind = kind
  | matchValue target => fun i j => j = i + 1 ∧ ∃ node, source[i]? = some node ∧
      node.kind = target.kind ∧ ∃ word, node.hash = some word ∧ target.hash = some word
  | capture _ inner => Derives source inner

def DerivesAll (source : List Node) : List Blueprint → Nat → Nat → Prop
  | [] => fun i j => i = j
  | item :: items => fun i j => ∃ k, Derives source item i k ∧ DerivesAll source items k j

def DerivesAny (source : List Node) : List Blueprint → Nat → Nat → Prop
  | [] => fun _ _ => False
  | item :: items => fun i j => Derives source item i j ∨ DerivesAny source items i j

end

end Blueprint
end Homoicon
