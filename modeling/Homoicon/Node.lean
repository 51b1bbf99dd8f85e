import Homoicon.Decimal.Layout
import Homoicon.Digest
import Homoicon.Kind
import Homoicon.Location

/-! The one tree type, for tokens, syntax and patterns alike. -/
namespace Homoicon

/-- What a node holds besides its children. -/
inductive Value
  | none
  | number (value : Float)
  | text (value : String)
  | flag (value : Bool)
  | kind (value : Kind)
deriving BEq

namespace Value

def display : Value → String
  | none => "null"
  | number x => Decimal.Layout.plainest.display x
  | text s => s
  | flag b => if b then "true" else "false"
  | kind k => k.name

def text? : Value → Option String
  | text s => some s
  | _ => .none

def number? : Value → Option Float
  | number x => some x
  | _ => .none

def flag? : Value → Option Bool
  | flag b => some b
  | _ => .none

def kind? : Value → Option Kind
  | kind k => some k
  | _ => .none

end Value

/-- The source text around a node's children: before, after and between them. -/
structure Fragments where
  before : String := ""
  after : String := ""
  joiner : String := ""
deriving DecidableEq, Repr

/-- A tree with its structural hash. The hash is absent where a node was built unhashable or holds a
child without one; `valueInHash` says whether the value takes part in it. -/
structure Node where
  kind : Kind
  children : List Node
  value : Value
  fragments : Fragments
  location : Location
  hash : Option UInt64
  valueInHash : Bool

namespace Node

def structuralHash (kind : Kind) (children : List Node) (value : Value) (valueInHash : Bool) :
    Option UInt64 :=
  (children.foldlM (fun hash (child : Node) => child.hash.map (Digest.mixChild hash))
    (Digest.ofText kind.name)).map
    fun hash => Digest.mixValue hash (if valueInHash then Digest.ofText value.display else 0)

/-- A node, hashed from its parts if it is `hashable`. -/
def build (kind : Kind) (children : List Node) (value : Value) (fragments : Fragments)
    (location : Location) (hashable valueInHash : Bool) : Node where
  kind
  children
  value
  fragments
  location
  hash := if hashable then structuralHash kind children value valueInHash else none
  valueInHash

/-- A hashable node whose value takes part in the hash. -/
def new (kind : Kind) (children : List Node) (value : Value) (fragments : Fragments)
    (location : Location) : Node :=
  build kind children value fragments location true true

/-- The same node with other children; one without a hash stays without. -/
def withChildren (node : Node) (children : List Node) : Node :=
  { node with
    children
    hash := node.hash.bind fun _ =>
      structuralHash node.kind children node.value node.valueInHash }

def nil (location : Location) : Node := new .nil [] .none {} location

def endOfInput (location : Location) : Node := new .endOfInput [] .none {} location

/-- A symbol's value is its own source text. -/
def symbol (kind : Kind) (text : String) (location : Location) : Node :=
  new kind [] (.text text) { before := text } location

def name (text : String) (location : Location) : Node := symbol .nameSymbol text location

def operator (text : String) (location : Location) : Node := symbol .operatorSymbol text location

def space (text : String) (location : Location) : Node := symbol .spaceSymbol text location

/-- A number and the text it was written as. -/
def number (value : Float) (written : String) (location : Location) : Node :=
  new .number [] (.number value) { before := written } location

/-- A string literal: `raw` is what stands between the quotes, with its escapes. -/
def string (value raw quote : String) (location : Location) : Node :=
  new .string [] (.text value) { before := quote ++ raw, after := quote } location

def block (kind : Kind) (children : List Node) (opener closer : String) (location : Location) :
    Node :=
  new kind children .none { before := opener, after := closer } location

mutual

/-- Combines a node with the results for its children, from the leaves up. -/
def fold {α : Type} (combine : Node → List α → α) : Node → α
  | ⟨kind, children, value, fragments, location, hash, valueInHash⟩ =>
    combine ⟨kind, children, value, fragments, location, hash, valueInHash⟩
      (foldAll combine children)

def foldAll {α : Type} (combine : Node → List α → α) : List Node → List α
  | [] => []
  | node :: nodes => fold combine node :: foldAll combine nodes

end

theorem foldAll_eq_map {α : Type} (combine : Node → List α → α) (nodes : List Node) :
    foldAll combine nodes = nodes.map (fold combine) := by
  induction nodes with
  | nil => rfl
  | cons node nodes ih => simp [foldAll, ih]

theorem fold_eq {α : Type} (combine : Node → List α → α) (node : Node) :
    node.fold combine = combine node (node.children.map (fold combine)) := by
  cases node
  simp [fold, foldAll_eq_map]

def size (node : Node) : Nat := node.fold fun _ sizes => sizes.foldl (· + ·) 1

def depth (node : Node) : Nat := node.fold fun _ depths => depths.foldl max 0 + 1

mutual

/-- Equal kind, value and children; source text and locations are ignored. -/
def sameStructure : Node → Node → Bool
  | ⟨kind, children, value, _, _, _, _⟩, other =>
    kind == other.kind && value == other.value && sameStructures children other.children

/-- Equally many trees of the same structure. -/
def sameStructures : List Node → List Node → Bool
  | [], others => others.isEmpty
  | node :: nodes, others =>
    match others with
    | [] => false
    | other :: others => sameStructure node other && sameStructures nodes others

end

mutual

/-- Equality of everything a node holds, numbers compared as numbers. -/
def beq : Node → Node → Bool
  | ⟨kind, children, value, fragments, location, hash, valueInHash⟩, other =>
    kind == other.kind && beqAll children other.children && value == other.value &&
      fragments == other.fragments && location == other.location && hash == other.hash &&
      valueInHash == other.valueInHash

def beqAll : List Node → List Node → Bool
  | [], others => others.isEmpty
  | node :: nodes, others =>
    match others with
    | [] => false
    | other :: others => beq node other && beqAll nodes others

end

instance : BEq Node := ⟨beq⟩

end Node
end Homoicon
