import Homoicon.Node

/-! Trees written back as text. -/
namespace Homoicon

/-- What to write before a node's children, for the children together, and after them. -/
structure Renderer where
  opening : Node → String
  combine : Node → List String → String
  closing : Node → String

namespace Renderer

/-- The parts with the node's joiner between them; a map without entries shows a colon, which tells
it from an empty list. -/
def joined (node : Node) (parts : List String) : String :=
  if node.kind = .map ∧ parts = [] then ":" else node.fragments.joiner.intercalate parts

def verbatim : Renderer := ⟨(·.fragments.before), joined, (·.fragments.after)⟩

end Renderer

def Node.render (r : Renderer) (node : Node) : String :=
  node.fold fun node parts => r.opening node ++ r.combine node parts ++ r.closing node

def Node.unparse (node : Node) : String := node.render .verbatim

theorem Node.render_eq (r : Renderer) (node : Node) :
    node.render r =
      r.opening node ++ r.combine node (node.children.map (Node.render r)) ++ r.closing node := by
  unfold Node.render
  rw [Node.fold_eq]

theorem Node.unparse_eq (node : Node) :
    node.unparse = node.fragments.before ++ Renderer.joined node (node.children.map Node.unparse) ++
      node.fragments.after :=
  Node.render_eq .verbatim node

theorem Node.unparse_symbol (kind : Kind) (text : String) (location : Location)
    (h : kind ≠ .map) : (Node.symbol kind text location).unparse = text := by
  rw [Node.unparse_eq]
  simp [Node.symbol, Node.new, Node.build, Renderer.joined, h]

theorem Node.unparse_string (value raw quote : String) (location : Location) :
    (Node.string value raw quote location).unparse = quote ++ raw ++ quote := by
  rw [Node.unparse_eq]
  simp [Node.string, Node.new, Node.build, Renderer.joined]

end Homoicon
