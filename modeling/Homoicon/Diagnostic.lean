import Homoicon.Misuse
import Homoicon.ParseError
import Homoicon.Render.Highlight
import Homoicon.Source
import Homoicon.Text.Lines

/-! Errors made ready for people. -/
namespace Homoicon
open Text (padLeft quoted spaces)

/-- A problem in one line, a longer explanation, where it is, and other places that bear on it. -/
structure Diagnostic where
  problem : String
  details : String
  location : Location
  notes : List Note := []
deriving DecidableEq, Repr

def ParseError.Cause.details : ParseError.Cause → String
  | unclosed opener =>
    if opener = "" then "The input ended before the top level was complete."
    else "The block opened here with " ++ quoted opener ++
      " was still open when the input ran out.\n" ++
      "Add the matching closing delimiter, or escape the opener if it was meant\nliterally."
  | unknownEscape =>
    "The recognized escapes are \\a \\b \\e \\f \\n \\r \\t \\v \\z \\\" \\' \\\\ as well as\n" ++
      "\\xNN for a byte value and \\u\x7b...\x7d for a Unicode code point."
  | invalidEscape =>
    "This escape sequence is incomplete or has the wrong shape. \\x needs exactly\n" ++
      "two hexadecimal digits; \\u must be followed by a braced code point."
  | escapeOutOfRange =>
    "The value given is not a Unicode scalar value. Code points must be at most\n" ++
      "10FFFF and outside the surrogate range D800 to DFFF."
  | expectedBrace letter _ =>
    "The \\" ++ letter ++ " escape takes its code point in braces, as in \\" ++ letter ++
      "\x7b1F600\x7d."
  | unknownRule name =>
    "The grammar nests a block rule called " ++ quoted name ++ " but never defines it."

def Misuse.Cause.details : Misuse.Cause → String
  | expectedSymbol => "A name, operator, or space was needed here."
  | notAMap _ => "This operation only works on map values, written [key: value]."
  | unhashable =>
    "Map keys must have a structural hash. Maps themselves, and anything\n" ++
      "containing a map, cannot be used as keys."
  | taskInUse => "A task runs one tree at a time; wait for it to complete first."

def ParseError.toDiagnostic (e : ParseError) : Diagnostic :=
  ⟨e.message, e.cause.details, e.location, e.notes⟩

def Misuse.toDiagnostic (m : Misuse) : Diagnostic := ⟨m.message, m.cause.details, m.location, []⟩

/-- The line of the source that a place is on, or a question mark if there is none. -/
def sourceLine (source : String) (line : Nat) : String :=
  match (Text.lines source.toList)[line]? with
  | some text => String.ofList text
  | none => "?"

/-- The source line of a place with its number, and a caret under the column. -/
def excerpt (place : Place) (source : String) (h : Highlight) : String :=
  let number := toString (place.line + 1)
  let width := max 3 number.length
  let bar := h .gutter "|"
  let margin := spaces width ++ " " ++ bar
  margin ++ "\n" ++ h .gutter (padLeft width number) ++ " " ++ bar ++ " " ++
    sourceLine source place.line ++ "\n" ++ margin ++ " " ++ spaces place.column ++ h .caret "^"

namespace Diagnostic

def concise (d : Diagnostic) (h : Highlight) : String :=
  h .error "error" ++ ": " ++ d.location.display ++ " " ++ h .emphasis d.problem

/-- A note; its source line is shown if it is in the same file. -/
def noteText (d : Diagnostic) (source : String) (h : Highlight) (note : Note) : String :=
  "\n\n" ++ note.location.display ++ " " ++ note.message ++
    if note.location.file = d.location.file then
      "\n\n" ++ excerpt note.location.toPlace source h
    else ""

def causeText (message : String) (place : Place) : String :=
  "\n\ncaused by: " ++ message ++ " at " ++ place.display

def full (d : Diagnostic) (source : String) (h : Highlight) : String :=
  d.concise h ++ "\n\n" ++ excerpt d.location.toPlace source h ++ "\n\n" ++ d.details ++
    String.join (d.notes.map (d.noteText source h)) ++
    String.join (d.location.causes.map fun (message, place) => causeText message place)

end Diagnostic

def LoadError.concise (e : LoadError) (h : Highlight) : String :=
  h .error "error" ++ ": " ++ e.file ++ ": " ++ h .emphasis e.problem

end Homoicon
