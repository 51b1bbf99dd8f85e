import Homoicon.Grammar.Reading

/-!
The block reader with one place in the tokens that all blocks share, with positions in bytes, and
with every cut of a text and every subtraction of lengths checked.
-/
namespace Homoicon.Guarded

/-- Why a reader breaks off: a text is cut outside of it or inside of a character, or a length would
be negative. -/
inductive Trap
  | cut
  | underflow

def splitAt (text : String) (bytes : Nat) : Except Trap (String × String) :=
  if h : (⟨bytes⟩ : String.Pos.Raw).IsValid text then
    .ok ((text.sliceTo ⟨⟨bytes⟩, h⟩).copy, (text.sliceFrom ⟨⟨bytes⟩, h⟩).copy)
  else .error .cut

def sub (m n : Nat) : Except Trap Nat := if n ≤ m then .ok (m - n) else .error .underflow

/-! ### Strings -/

def width? (first : Char) : Option Nat :=
  match Escape.letter? first with
  | some _ => some 1
  | none => (Escape.digitCount? first).map (· + 1)

def decoded (first : Char) (digits : String) : Except ParseError.Cause Char :=
  match Escape.letter? first with
  | some c => .ok c
  | none => Escape.codePoint digits.toList

def decode (text : String) : Except Trap (Except ParseError.Cause (List Char)) :=
  match text.toList with
  | [] => .ok (.error .invalidEscape)
  | first :: _ =>
    match width? first with
    | none => .ok (.error .unknownEscape)
    | some width => do
      let (head, rest) ← splitAt text (String.ofList (text.toList.take width)).utf8ByteSize
      let (_, digits) ← splitAt head first.utf8Size
      if head.length < width ∨ !digits.toList.all Text.isHexDigit then .ok (.error .invalidEscape)
      else
        .ok ((decoded first digits).map (· :: rest.toList))

def pieces (string : Location) : List Node → Except Trap (Except ParseError (List Piece))
  | [] => .ok (.ok [])
  | item :: rest =>
    if item.kind.isBlock then ((.code item :: ·) <$> ·) <$> pieces string rest
    else if item.fragments.before ≠ "\\" then
      ((.literal item.fragments.before item.fragments.before item.location :: ·) <$> ·) <$>
        pieces string rest
    else
      match rest with
      | [] => .ok (.error ⟨.invalidEscape, item.location⟩)
      | next :: rest =>
        let text := next.fragments.before
        if text ∈ ["'", "\"", "\x7b", "\x7d"] then
          ((.literal text ("\\" ++ text) item.location :: ·) <$> ·) <$> pieces string rest
        else if !next.kind.isSymbol then .ok (.error ⟨.invalidEscape, next.location⟩)
        else if text = "u" ∨ text = "U" then
          match rest with
          | [] => .ok (.error ⟨.expectedBrace text string, next.location⟩)
          | block :: rest =>
            if block.kind.isBlock then
              match Piece.escaped ((Escape.decodeBraced block.unparse.toList).map ([·]))
                (text ++ block.unparse) item.location block.location with
              | .error e => .ok (.error e)
              | .ok piece => ((piece :: ·) <$> ·) <$> pieces string rest
            else .ok (.error ⟨.expectedBrace text string, block.location⟩)
        else do
          match Piece.escaped (← decode text) text item.location next.location with
          | .error e => .ok (.error e)
          | .ok piece => ((piece :: ·) <$> ·) <$> pieces string rest

def assemble (assembly : Assembly) (kind : Kind) (items : List Node) (opener closer : String)
    (location : Location) : Except Trap (Except ParseError Node) :=
  match assembly with
  | .interpolated => do
    let found ← pieces location items
    .ok do
      let (nodes, last) := Piece.gather location {} (← found)
      if nodes.isEmpty then .ok (.string last.value last.raw opener location)
      else .ok (.block .stringBlock (nodes ++ last.nodes location) opener opener location)
  | assembly => .ok (assembly.assemble kind items opener closer location)

/-! ### Candidates -/

/-- How much of a candidate the latest tokens spell, by tokens and by bytes. -/
structure Tally (α : Type) where
  candidate : String
  meaning : α
  tokens : Nat := 0
  bytes : Nat := 0

namespace Tally
variable {α : Type}

def reset (t : Tally α) : Tally α := { t with tokens := 0, bytes := 0 }

/-- The next token, and how many tokens spell the candidate if it completes it. -/
def advance (t : Tally α) (text : String) : Except Trap (Tally α × Option Nat) := do
  let (_, remaining) ← splitAt t.candidate t.bytes
  if text == "" || !text.toList.isPrefixOf remaining.toList then .ok (t.reset, none)
  else
    let later := { t with tokens := t.tokens + 1, bytes := t.bytes + text.utf8ByteSize }
    if later.candidate.utf8ByteSize ≤ later.bytes then .ok (t.reset, some later.tokens)
    else .ok (later, none)

/-- The next token for several candidates, and the first of those that it completes. -/
def sweep (text : String) :
    List (Tally α) → Except Trap (List (Tally α) × Option (String × α × Nat))
  | [] => .ok ([], none)
  | t :: others => do
    let (later, spanned?) ← t.advance text
    let (others, found?) ← sweep text others
    .ok (later :: others, (spanned?.map (t.candidate, t.meaning, ·)).or found?)

/-- What holds of a candidate between two tokens, in a block of so many items. -/
structure Sound (size : Nat) (t : Tally α) : Prop where
  isValid : (⟨t.bytes⟩ : String.Pos.Raw).IsValid t.candidate
  lt_size : t.candidate ≠ "" → t.bytes < t.candidate.utf8ByteSize
  eq_zero : t.candidate = "" → t.bytes = 0
  tokens_le : t.tokens ≤ size

end Tally

/-! ### Blocks -/

structure Frame where
  contents : List Node
  skips : List (Tally Unit)
  triggers : List (Tally String)
  ends : List (Tally Unit)

/-- What one token does: the block goes on, ends, or loses its latest contents to a block in it. -/
inductive Turn
  | stay (frame : Frame)
  | close (contents : List Node) (closer : String)
  | enter (contents : List Node) (opener target : String) (location : Location)

namespace Frame

def new (rule : Rule) : Frame where
  contents := []
  skips := rule.skips.map fun text => { candidate := text, meaning := () }
  triggers := rule.triggers.map fun (text, target) => { candidate := text, meaning := target }
  ends := rule.markers.map fun text => { candidate := text, meaning := () }

/-- Nothing is seen of any candidate any more. -/
def resume (frame : Frame) (contents : List Node) : Frame where
  contents
  skips := frame.skips.map Tally.reset
  triggers := frame.triggers.map Tally.reset
  ends := frame.ends.map Tally.reset

def turn (frame : Frame) (token : Node) : Except Trap Turn := do
  let text := token.fragments.before
  let (skips, skipped?) ← Tally.sweep text frame.skips
  if skipped?.isSome then
    .ok (.stay { frame with contents := frame.contents ++ [token], skips })
  else
    let (triggers, nested?) ← Tally.sweep text frame.triggers
    let (ends, finished?) ← Tally.sweep text frame.ends
    match finished? with
    | some (closer, _, spanned) =>
      let size ← sub (frame.contents.length + 1) spanned
      .ok (.close (frame.contents.take size) closer)
    | none =>
      let contents := frame.contents ++ [token]
      match nested? with
      | some (opener, target, spanned) =>
        let size ← sub contents.length spanned
        let location := ((contents.drop size).head?.getD token).location
        .ok (.enter (contents.take size) opener target location)
      | none => .ok (.stay { contents, skips, triggers, ends })

/-- What holds of all candidates of a block between two tokens. -/
structure Sound (frame : Frame) : Prop where
  skips : ∀ t ∈ frame.skips, t.Sound frame.contents.length
  triggers : ∀ t ∈ frame.triggers, t.Sound frame.contents.length
  ends : ∀ t ∈ frame.ends, t.Sound frame.contents.length

end Frame

/-- What comes of reading on from a place in the tokens: the node, the next place, the places of the
tokens that were consumed, and the blocks as they were between two tokens. -/
structure Outcome (place : Nat) where
  answer : Except ParseError Node
  next : Nat
  consumed : List Nat
  frames : List Frame
  le : place ≤ next

/-- Reads on in a block until it is closed. The end of the input is not consumed, so the blocks
around it come to it too. -/
def read (g : Grammar) (tokens : List Node) (rule : Rule) (opener : String) (location : Location)
    (frame : Frame) (place : Nat) : Except Trap (Outcome place) :=
  if h : place < tokens.length ∧ tokens[place]?.map (·.kind) ≠ some .endOfInput then do
    match ← frame.turn tokens[place] with
    | .stay later =>
      let rest ← read g tokens rule opener location later (place + 1)
      .ok ⟨rest.answer, rest.next, place :: rest.consumed, frame :: rest.frames,
        Nat.le_of_succ_le rest.le⟩
    | .close contents closer =>
      let answer ← assemble rule.assembly rule.kind contents opener closer location
      .ok ⟨answer, place + 1, [place], [frame], Nat.le_succ place⟩
    | .enter contents inner target first =>
      match g.rule? target with
      | none => .ok ⟨.error ⟨.unknownRule target, first⟩, place + 1, [place], [frame],
          Nat.le_succ place⟩
      | some rule' => do
        let block ← read g tokens rule' inner first (.new rule') (place + 1)
        match block.answer with
        | .error e => .ok ⟨.error e, block.next, place :: block.consumed, frame :: block.frames,
            Nat.le_of_succ_le block.le⟩
        | .ok node =>
          let rest ← read g tokens rule opener location (frame.resume (contents ++ [node]))
            block.next
          .ok ⟨rest.answer, rest.next, place :: block.consumed ++ rest.consumed,
            frame :: block.frames ++ rest.frames, Nat.le_trans (Nat.le_of_succ_le block.le) rest.le⟩
  else if rule.acceptsEndOfInput then do
    let answer ← assemble rule.assembly rule.kind frame.contents opener "" location
    .ok ⟨answer, place, [], [frame], Nat.le_refl place⟩
  else .ok ⟨.error ⟨.unclosed opener, location⟩, place, [], [frame], Nat.le_refl place⟩
termination_by tokens.length - place
decreasing_by
  · omega
  · omega
  · have := block.le
    omega

def parse (g : Grammar) (tokens : List Node) : Except Trap (Outcome 0) :=
  let start := (tokens.head?.map (·.location)).getD .unknown
  match g.rule? g.toplevel with
  | none => .ok ⟨.error ⟨.unknownRule g.toplevel, start⟩, 0, [], [], Nat.le_refl 0⟩
  | some rule => read g tokens rule "" start (.new rule) 0

end Homoicon.Guarded
