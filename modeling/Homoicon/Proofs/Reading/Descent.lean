import Homoicon.Grammar.Reading

/-!
The standard grammar as a reader that descends into each block and looks at most one token ahead.
-/
namespace Homoicon

/-- What means something in a stream of tokens: a token that is one character, or two such tokens in
succession. -/
inductive Mark
  | one (c : Char)
  | two (c next : Char)
deriving DecidableEq

namespace Mark

def chars : Mark → List Char
  | one c => [c]
  | two c next => [c, next]

def text (mark : Mark) : String := .ofList mark.chars

def more : Mark → Nat
  | one _ => 0
  | two _ _ => 1

/-- Whether the mark begins with a token of the given text, which one of the text `next?` follows.
-/
def isAt (text : String) (next? : Option String) : Mark → Bool
  | one c => text == .singleton c
  | two c next => text == .singleton c && next? == some (.singleton next)

end Mark

/-- The blocks of the standard grammar. -/
inductive Form
  | toplevel
  | round
  | square
  | curly
  | interpolation
  | string
  | rawString
  | comment
  | lineComment
deriving DecidableEq

/-- What a mark means inside a block: its tokens are children like others, or it closes the block,
or it opens one. -/
inductive Action
  | keep
  | close
  | enter (inner : Form)
deriving DecidableEq

/-- A node, and the tokens that are left of those given. -/
structure Parsed (tokens : List Node) where
  node : Node
  rest : List Node
  suffix : rest <:+ tokens

def Parsed.of {tokens more : List Node} (p : Parsed tokens) (h : tokens <:+ more) :
    Parsed more :=
  ⟨p.node, p.rest, p.suffix.trans h⟩

namespace Form

/-- Pairs in which a backslash takes the meaning from the token after it. -/
def escapes : Form → List Mark
  | string => [.two '\\' '"', .two '\\' '\\', .two '\\' '\x7b']
  | rawString => [.two '\\' '\'', .two '\\' '\\']
  | _ => []

def closers : Form → List Mark
  | toplevel => []
  | round => [.one ')']
  | square => [.one ']']
  | curly | interpolation => [.one '\x7d']
  | string => [.one '"']
  | rawString => [.one '\'']
  | comment => [.two '#' '#']
  | lineComment => [.one '\n']

def openers : Form → List (Mark × Form)
  | string => [(.one '\x7b', interpolation)]
  | rawString | comment | lineComment => []
  | _ =>
    [(.one '(', round), (.one '[', square), (.one '\x7b', curly), (.one '"', string),
      (.one '\'', rawString), (.two '#' '#', comment), (.two '#' ' ', lineComment)]

/-- All marks that mean something inside a block. -/
def marks (form : Form) : List (Mark × Action) :=
  form.escapes.map (·, .keep) ++ form.closers.map (·, .close) ++
    form.openers.map fun (mark, inner) => (mark, .enter inner)

/-- The mark that begins with a token of the given text, which one of the text `next?` follows. -/
def markAt? (form : Form) (text : String) (next? : Option String) : Option (Mark × Action) :=
  form.marks.find? (·.1.isAt text next?)

def endsWithInput : Form → Bool
  | toplevel | lineComment => true
  | _ => false

def kind : Form → Kind
  | toplevel => .toplevelBlock
  | round | interpolation => .roundBlock
  | square => .squareBlock
  | curly => .curlyBlock
  | string | rawString => .string
  | comment | lineComment => .spaceSymbol

def assembly : Form → Assembly
  | string => .interpolated
  | rawString => .raw
  | comment | lineComment => .comment
  | _ => .block

@[simp] theorem isCustom_assembly (form : Form) : form.assembly.isCustom = false := by
  cases form <;> rfl

/-- The node of a block whose items stand latest first. -/
def node (form : Form) (items : List Node) (opener closer : String) (location : Location) :
    Except ParseError Node :=
  form.assembly.assemble form.kind items.reverse opener closer location

/-- Reads on in a block that `opener` began at `location` until it is closed. -/
def read (form : Form) (opener : String) (location : Location) (items : List Node) :
    (tokens : List Node) → Except ParseError (Parsed tokens)
  | [] =>
    if form.endsWithInput then do
      let node ← form.node items opener "" location
      .ok ⟨node, [], List.suffix_refl _⟩
    else .error ⟨.unclosed opener, location⟩
  | token :: tokens =>
    match form.markAt? token.fragments.before (tokens.head?.map (·.fragments.before)) with
    | none => do
      let found ← read form opener location (token :: items) tokens
      .ok (found.of (List.suffix_cons ..))
    | some (mark, .keep) => do
      let found ← read form opener location ((tokens.take mark.more).reverse ++ token :: items)
        (tokens.drop mark.more)
      .ok (found.of ((List.drop_suffix ..).trans (List.suffix_cons ..)))
    | some (mark, .close) => do
      let node ← form.node items opener mark.text location
      .ok ⟨node, tokens.drop mark.more, (List.drop_suffix ..).trans (List.suffix_cons ..)⟩
    | some (mark, .enter inner) => do
      let block ← read inner mark.text token.location [] (tokens.drop mark.more)
      let found ← read form opener location (block.node :: items) block.rest
      .ok (found.of (block.suffix.trans ((List.drop_suffix ..).trans (List.suffix_cons ..))))
termination_by tokens => tokens.length
decreasing_by
  · simp
  · simp only [List.length_drop, List.length_cons]
    omega
  · simp only [List.length_drop, List.length_cons]
    omega
  · have hle := block.suffix.length_le
    simp only [List.length_drop, List.length_cons] at *
    omega

end Form

def descend (text file : String) : Except ParseError Node := do
  let tokens := tokenize text file
  let start := (tokens.head?.map (·.location)).getD .unknown
  let found ← Form.read .toplevel "" start [] (tokens.takeWhile (·.kind != .endOfInput))
  .ok found.node

end Homoicon
