import Homoicon.Grammar.Escape
import Homoicon.Misuse
import Homoicon.Render

/-! How the contents of a closed block become a node. -/
namespace Homoicon

inductive Piece
  | literal (value raw : String) (location : Location)
  | code (block : Node)

namespace Piece

/-- The text of an escape that follows a backslash at `location`, with its source. -/
def escaped (value : Except ParseError.Cause (List Char)) (raw : String) (location : Location)
    (blamed : Location) : Except ParseError Piece :=
  match value with
  | .ok chars => .ok (.literal (String.ofList chars) ("\\" ++ raw) location)
  | .error cause => .error ⟨cause, blamed⟩

/-- The pieces of a string's items. The string itself begins at `string`. -/
def ofItems (string : Location) : List Node → Except ParseError (List Piece)
  | [] => .ok []
  | item :: rest =>
    if item.kind.isBlock then (code item :: ·) <$> ofItems string rest
    else if item.fragments.before ≠ "\\" then
      (literal item.fragments.before item.fragments.before item.location :: ·) <$>
        ofItems string rest
    else
      match rest with
      | [] => .error ⟨.invalidEscape, item.location⟩
      | next :: rest =>
        let text := next.fragments.before
        if text ∈ ["'", "\"", "\x7b", "\x7d"] then
          (literal text ("\\" ++ text) item.location :: ·) <$> ofItems string rest
        else if !next.kind.isSymbol then .error ⟨.invalidEscape, next.location⟩
        else if text = "u" ∨ text = "U" then
          match rest with
          | [] => .error ⟨.expectedBrace text string, next.location⟩
          | block :: rest =>
            if block.kind.isBlock then do
              let piece ← escaped ((Escape.decodeBraced block.unparse.toList).map ([·]))
                (text ++ block.unparse) item.location block.location
              (piece :: ·) <$> ofItems string rest
            else .error ⟨.expectedBrace text string, block.location⟩
        else do
          let piece ← escaped (Escape.decode text.toList) text item.location next.location
          (piece :: ·) <$> ofItems string rest

end Piece

/-- Text of a string since its last block of code. -/
structure Segment where
  value : String := ""
  raw : String := ""
  location : Option Location := none

namespace Segment

/-- A segment begins where its first text does. -/
def push (s : Segment) (value raw : String) (location : Location) : Segment :=
  ⟨s.value ++ value, s.raw ++ raw, s.location.or (some location)⟩

/-- A string without quotes; one that has no source text is left out. -/
def nodes (s : Segment) (fallback : Location) : List Node :=
  if s.raw = "" then [] else [.string s.value s.raw "" (s.location.getD fallback)]

def rest (s : Segment) : Segment := if s.raw = "" then s else {}

end Segment

/-- The children of a string up to its last block of code, and the segment after it. -/
def Piece.gather (fallback : Location) (segment : Segment) : List Piece → List Node × Segment
  | [] => ([], segment)
  | .literal value raw location :: pieces =>
    gather fallback (segment.push value raw location) pieces
  | .code block :: pieces =>
    let (nodes, last) := gather fallback segment.rest pieces
    (segment.nodes fallback ++ block :: nodes, last)

/-- A raw string's escapes: a quote or a backslash after a backslash. -/
def unescapeRaw : List Char → List Char
  | '\\' :: '\'' :: rest => '\'' :: unescapeRaw rest
  | '\\' :: '\\' :: rest => '\\' :: unescapeRaw rest
  | c :: rest => c :: unescapeRaw rest
  | [] => []

def Node.unparseAll (nodes : List Node) : String := String.join (nodes.map Node.unparse)

/-- The ways to make a node of a closed block: those of the standard grammar, or any other function
of its kind, items, opener, closer and location. -/
inductive Assembly
  | block
  | comment
  | raw
  | interpolated
  | custom (finish : Kind → List Node → String → String → Location → Except ParseError Node)

namespace Assembly

def isCustom : Assembly → Bool
  | custom _ => true
  | _ => false

instance : (assembly : Assembly) → Decidable (assembly = block)
  | block => .isTrue rfl
  | comment | raw | interpolated | custom _ => .isFalse nofun

instance : (assembly : Assembly) → Decidable (assembly = comment)
  | comment => .isTrue rfl
  | block | raw | interpolated | custom _ => .isFalse nofun

instance : (assembly : Assembly) → Decidable (assembly = raw)
  | raw => .isTrue rfl
  | block | comment | interpolated | custom _ => .isFalse nofun

instance : (assembly : Assembly) → Decidable (assembly = interpolated)
  | interpolated => .isTrue rfl
  | block | comment | raw | custom _ => .isFalse nofun

/-- A string with interpolated code, or a plain string if it has none. -/
def string (items : List Node) (quote : String) (location : Location) : Except ParseError Node := do
  let pieces ← Piece.ofItems location items
  let (nodes, last) := Piece.gather location {} pieces
  if nodes.isEmpty then .ok (.string last.value last.raw quote location)
  else .ok (.block .stringBlock (nodes ++ last.nodes location) quote quote location)

/-- The node of a block with the given contents between its opener and its closer. A comment becomes
one space that holds its whole text. -/
def assemble (assembly : Assembly) (kind : Kind) (items : List Node) (opener closer : String)
    (location : Location) : Except ParseError Node :=
  match assembly with
  | block => .ok (.block kind items opener closer location)
  | comment => .ok (.space (opener ++ Node.unparseAll items ++ closer) location)
  | raw =>
    let source := Node.unparseAll items
    .ok (.string (String.ofList (unescapeRaw source.toList)) source opener location)
  | interpolated => string items opener location
  | custom finish => finish kind items opener closer location

end Assembly
end Homoicon
