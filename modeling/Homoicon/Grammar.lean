import Homoicon.Grammar.Assembly

/-! Tables of block rules. -/
namespace Homoicon

inductive Terminator
  | marker (text : String)
  | endOfInput
deriving DecidableEq, Repr

/-- How a block is read. Of the triggers that complete on one token the first one listed wins, and a
skip that completes hides its last token from triggers and markers. -/
structure Rule where
  kind : Kind
  assembly : Assembly
  terminators : List Terminator := []
  triggers : List (String × String) := []
  skips : List String := []

namespace Rule

def markers (rule : Rule) : List String :=
  rule.terminators.filterMap fun
    | .marker text => some text
    | .endOfInput => none

def acceptsEndOfInput (rule : Rule) : Bool := rule.terminators.contains .endOfInput

def endsWith (rule : Rule) (marker : String) : Rule :=
  { rule with terminators := rule.terminators ++ [.marker marker] }

def endsAtEndOfInput (rule : Rule) : Rule :=
  { rule with terminators := rule.terminators ++ [.endOfInput] }

/-- Reads a block by the rule named `target` where the trigger is seen. -/
def nests (rule : Rule) (trigger target : String) : Rule :=
  { rule with triggers := rule.triggers ++ [(trigger, target)] }

def skipping (rule : Rule) (text : String) : Rule := { rule with skips := rule.skips ++ [text] }

end Rule

/-- Named rules, the latest first, and the name of the rule for a whole text. -/
structure Grammar where
  toplevel : String
  rules : List (String × Rule) := []

namespace Grammar

def rule? (g : Grammar) (name : String) : Option Rule := g.rules.lookup name

/-- Adds a rule; it takes the place of an earlier one of the same name. -/
def insert (g : Grammar) (name : String) (rule : Rule) : Grammar :=
  { g with rules := (name, rule) :: g.rules }

/-- Openers seen in code, in order of priority. -/
def codeTriggers : List (String × String) :=
  [("(", "round"), ("[", "square"), ("\x7b", "curly"), ("\"", "string"), ("'", "rawstring"),
    ("##", "comment"), ("# ", "line_comment")]

def codeRule (kind : Kind) (terminator : Terminator) : Rule :=
  ⟨kind, .block, [terminator], codeTriggers, []⟩

/-- Brackets, strings and comments. -/
def standard : Grammar where
  toplevel := "toplevel"
  rules :=
    [("toplevel", codeRule .toplevelBlock .endOfInput),
      ("round", codeRule .roundBlock (.marker ")")),
      ("square", codeRule .squareBlock (.marker "]")),
      ("curly", codeRule .curlyBlock (.marker "\x7d")),
      ("string_interpolation", codeRule .roundBlock (.marker "\x7d")),
      ("string", ⟨.string, .interpolated, [.marker "\""], [("\x7b", "string_interpolation")],
        ["\\\"", "\\\\", "\\\x7b"]⟩),
      ("rawstring", ⟨.string, .raw, [.marker "'"], [], ["\\'", "\\\\"]⟩),
      ("comment", ⟨.spaceSymbol, .comment, [.marker "##"], [], []⟩),
      ("line_comment", ⟨.spaceSymbol, .comment, [.marker "\n", .endOfInput], [], []⟩)]

theorem isCustom_standard : ∀ named ∈ standard.rules, named.2.assembly.isCustom = false := by
  decide

end Grammar
end Homoicon
