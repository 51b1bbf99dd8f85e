import Homoicon.Json
import Homoicon.Node

/-! Nodes as JSON. -/
namespace Homoicon

def Value.toJson : Value → Json
  | none => .null
  | number x => .number x
  | text s => .string s
  | flag b => .bool b
  | kind k => .string k.tag

def Place.toJson (place : Place) (cause : Json) : Json :=
  .record [("file", .string place.file), ("line", .natural place.line),
    ("column", .natural place.column), ("cause", cause)]

/-- A place and, as its cause, the first message of the chain with the place it leads to. -/
def Place.chainJson (place : Place) : List (String × Place) → Json
  | [] => place.toJson .null
  | (message, next) :: causes =>
    place.toJson (.record [("message", .string message), ("location", next.chainJson causes)])

def Location.toJson (l : Location) : Json := l.toPlace.chainJson l.causes

def Node.toJson (node : Node) : Json :=
  node.fold fun node children =>
    .record [("kind", .string node.kind.tag), ("children", .list children),
      ("value", node.value.toJson), ("prefix", .string node.fragments.before),
      ("suffix", .string node.fragments.after), ("joiner", .string node.fragments.joiner),
      ("location", node.location.toJson),
      ("hash", match node.hash with
        | some hash => .natural hash.toNat
        | .none => .null)]

end Homoicon
