import Homoicon.Grammar
import Homoicon.Grammar.Watch
import Homoicon.Token

/-! Tokens grouped into blocks. -/
namespace Homoicon

/-- A block whose end has not been read. Its items stand latest first. -/
structure OpenBlock where
  rule : Rule
  opener : String
  location : Location
  items : List Node
  skips : List (Watch Unit)
  triggers : List (Watch String)
  markers : List (Watch Unit)

namespace OpenBlock

def new (rule : Rule) (opener : String) (location : Location) : OpenBlock where
  rule
  opener
  location
  items := []
  skips := rule.skips.map fun text => { marker := text, meaning := () }
  triggers := rule.triggers.map fun (text, target) => { marker := text, meaning := target }
  markers := rule.markers.map fun text => { marker := text, meaning := () }

def reset (b : OpenBlock) : OpenBlock :=
  { b with
    skips := b.skips.map Watch.reset
    triggers := b.triggers.map Watch.reset
    markers := b.markers.map Watch.reset }

def close (b : OpenBlock) (items : List Node) (closer : String) : Except ParseError Node :=
  b.rule.assembly.assemble b.rule.kind items b.opener closer b.location

end OpenBlock

/-- How far a stream of tokens has been read: the innermost block that is open and those around it,
or the finished tree. -/
inductive Reading
  | inside (current : OpenBlock) (outer : List OpenBlock)
  | finished (tree : Node)

namespace Reading

/-- Hands a finished block to the one around it. -/
def giveBack (node : Node) : List OpenBlock → Reading
  | [] => finished node
  | parent :: outer => inside { parent with items := node :: parent.items } outer

/-- The block that begins with the latest `spanned` items, in place of which it will stand. -/
def enter (g : Grammar) (b : OpenBlock) (outer : List OpenBlock) (trigger : Watch String)
    (spanned : Nat) (token : Node) : Except ParseError Reading :=
  let location := ((b.items.take spanned).getLast?.getD token).location
  match g.rule? trigger.meaning with
  | none => .error ⟨.unknownRule trigger.meaning, location⟩
  | some rule =>
    .ok (inside (.new rule trigger.marker location)
      ({ b.reset with items := b.items.drop spanned } :: outer))

/-- One more token inside a block. The earlier tokens of an end marker are already among the items
and belong to the closer. -/
def step (g : Grammar) (b : OpenBlock) (outer : List OpenBlock) (token : Node) :
    Except ParseError Reading :=
  let text := token.fragments.before
  let skipped := { b with skips := b.skips.map (·.advance text), items := token :: b.items }
  if b.skips.any (·.completes text) then .ok (inside skipped outer)
  else
    match Watch.firstComplete b.markers text with
    | some (marker, spanned) => do
      let node ← b.close (b.items.drop (spanned - 1)).reverse marker.marker
      .ok (giveBack node outer)
    | none =>
      let watched := { skipped with
        triggers := b.triggers.map (·.advance text)
        markers := b.markers.map (·.advance text) }
      match Watch.firstComplete b.triggers text with
      | some (trigger, spanned) => enter g watched outer trigger spanned token
      | none => .ok (inside watched outer)

/-- One more token; nothing changes once the tree is finished. -/
def next (g : Grammar) (reading : Reading) (token : Node) : Except ParseError Reading :=
  match reading with
  | inside current outer => step g current outer token
  | finished tree => .ok (finished tree)

/-- Closes the open blocks at the end of the input, innermost first. -/
def closeAll (current : OpenBlock) : List OpenBlock → Except ParseError Node
  | [] =>
    if current.rule.acceptsEndOfInput then current.close current.items.reverse ""
    else .error ⟨.unclosed current.opener, current.location⟩
  | parent :: outer =>
    if current.rule.acceptsEndOfInput then do
      let node ← current.close current.items.reverse ""
      closeAll { parent with items := node :: parent.items } outer
    else .error ⟨.unclosed current.opener, current.location⟩

def finish : Reading → Except ParseError Node
  | inside current outer => closeAll current outer
  | finished tree => .ok tree

end Reading

/-- The tree of a stream of tokens, which ends before the first node that stands for the end of the
input. -/
def Grammar.parse (g : Grammar) (tokens : List Node) : Except ParseError Node :=
  let start := (tokens.head?.map (·.location)).getD .unknown
  match g.rule? g.toplevel with
  | none => .error ⟨.unknownRule g.toplevel, start⟩
  | some rule => do
    let reading ← (tokens.takeWhile (·.kind != .endOfInput)).foldlM (Reading.next g)
      (.inside (.new rule "" start) [])
    reading.finish

def parseWith (g : Grammar) (text file : String) : Except ParseError Node :=
  g.parse (tokenize text file)

def parse (text file : String) : Except ParseError Node := parseWith .standard text file

end Homoicon
