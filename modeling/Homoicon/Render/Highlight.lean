import Homoicon.Render

/-! Styled text. -/
namespace Homoicon

inductive Role
  | neutral
  | name
  | operator
  | space
  | comment
  | numeric
  | string
  | bracket
  | pattern
  | error
  | gutter
  | caret
  | emphasis
deriving DecidableEq, Repr

namespace Role

def all : List Role :=
  [neutral, name, operator, space, comment, numeric, string, bracket, pattern, error, gutter,
    caret, emphasis]

def ofKind : Kind → Role
  | .nameSymbol => name
  | .operatorSymbol => operator
  | .spaceSymbol => space
  | .number => numeric
  | .string | .stringBlock => string
  | .roundBlock | .squareBlock | .curlyBlock | .list | .map | .keyValuePair => bracket
  | kind => if kind.isPattern then pattern else neutral

/-- The class of a node; a space that begins with a hash sign is a comment. -/
def ofNode (node : Node) : Role :=
  if node.kind = .spaceSymbol ∧ node.fragments.before.toList.head? = some '#' then comment
  else ofKind node.kind

end Role

/-- How text of each class is marked. -/
abbrev Highlight := Role → String → String

namespace Highlight

def identity : Highlight := fun _ content => content

/-- Text between two control sequences of a terminal. -/
def sequenced (start stop content : String) : String :=
  "\x1b[" ++ start ++ "m" ++ content ++ "\x1b[" ++ stop ++ "m"

def coloured (red green blue : Nat) (content : String) : String :=
  sequenced s!"38;2;{red};{green};{blue}" "39" content

def bold (content : String) : String := sequenced "1" "0" content

def italic (content : String) : String := sequenced "3" "0" content

/-- Colours and weights of a terminal. -/
def terminal : Highlight
  | .neutral, content => content
  | .space, content => content
  | .name, content => coloured 114 159 207 content
  | .operator, content => bold (coloured 204 0 0 content)
  | .comment, content => italic (coloured 153 153 153 content)
  | .numeric, content => bold (coloured 173 127 168 content)
  | .string, content => bold (coloured 78 154 6 content)
  | .bracket, content => bold (coloured 153 153 153 content)
  | .pattern, content => bold (coloured 143 89 2 content)
  | .error, content => sequenced "91" "39" content
  | .gutter, content => sequenced "94" "39" content
  | .caret, content => sequenced "91" "39" content
  | .emphasis, content => bold content

end Highlight

/-- The source fragments, each marked by its node's class. -/
def Renderer.highlighted (h : Highlight) : Renderer where
  opening node := h (.ofNode node) node.fragments.before
  combine := joined
  closing node := h (.ofNode node) node.fragments.after

end Homoicon
