import Homoicon.Misuse
import Homoicon.Text.Alphabetic
import Homoicon.Text.Lines
import Homoicon.Token.Numeral

/-! Text cut into tokens. -/
namespace Homoicon
open Text (Position isAlphabetic isBlank isNumeric isPunctuation)

inductive Lexeme
  | numeral
  | name
  | operator
  | blank
deriving DecidableEq, Repr

def isNamePart (c : Char) : Bool := isAlphabetic c || isNumeric c || c = '_'

def isInlineBlank (c : Char) : Bool := isBlank c && c != '\n'

namespace Lexeme

/-- Class and length of the token that `c` begins, when no literal begins there. -/
def scanChar (c : Char) (rest : List Char) : Lexeme × Nat :=
  if isPunctuation c then (operator, 1)
  else if isAlphabetic c then (name, Numeral.leading isNamePart rest + 1)
  else if c = '\n' then (blank, 1)
  else if isInlineBlank c then (blank, Numeral.leading isInlineBlank rest + 1)
  else (operator, 1)

/-- Class and length of the token at the front of a text that begins with `c`. -/
def scan (c : Char) (rest : List Char) : Lexeme × Nat :=
  if Numeral.length (c :: rest) ≠ 0 then (numeral, Numeral.length (c :: rest))
  else scanChar c rest

theorem scan_pos (c : Char) (rest : List Char) : 0 < (scan c rest).2 := by
  unfold scan scanChar
  repeat' split
  all_goals simp_all
  omega

def token (lexeme : Lexeme) (text : List Char) (location : Location) : Node :=
  match lexeme with
  | numeral => .number (Numeral.value text) (String.ofList text) location
  | name => .name (String.ofList text) location
  | operator => .operator (String.ofList text) location
  | blank => .space (String.ofList text) location

end Lexeme

namespace Token

/-- The tokens of a text that begins at `position`, and the end of the input. -/
def ofChars (file : String) (position : Position) : List Char → List Node
  | [] => [.endOfInput (.new file position.line position.column)]
  | c :: rest =>
    let found := Lexeme.scan c rest
    let text := (c :: rest).take found.2
    found.1.token text (.new file position.line position.column) ::
      ofChars file (position.after text) ((c :: rest).drop found.2)
termination_by text => text.length
decreasing_by
  have := Lexeme.scan_pos c rest
  simp only [List.length_drop, List.length_cons]
  omega

end Token

/-- Cuts a text into tokens, the last of which stands for the end of the input. -/
def tokenize (text file : String) : List Node := Token.ofChars file {} text.toList

end Homoicon
