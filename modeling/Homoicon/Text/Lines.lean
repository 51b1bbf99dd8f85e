/-! Points and lines of a text, and texts in columns. -/
namespace Homoicon.Text

/-- A point of a text, by the newlines before it and the characters since the last of them. -/
structure Position where
  line : Nat := 0
  column : Nat := 0
deriving DecidableEq, Repr

namespace Position

def next (p : Position) (c : Char) : Position :=
  if c = '\n' then ⟨p.line + 1, 0⟩ else ⟨p.line, p.column + 1⟩

def after (p : Position) (text : List Char) : Position := text.foldl next p

@[simp] theorem after_nil (p : Position) : p.after [] = p := rfl

@[simp] theorem after_append (p : Position) (s t : List Char) :
    p.after (s ++ t) = (p.after s).after t := by
  simp [after]

end Position

/-- Splits after each newline; a last line needs none, and there is no empty last line. -/
def splitLines : List Char → List (List Char)
  | [] => []
  | '\n' :: rest => ['\n'] :: splitLines rest
  | c :: rest =>
    match splitLines rest with
    | [] => [[c]]
    | line :: lines => (c :: line) :: lines

/-- A line without its terminator, which is a newline with or without a carriage return before it.
-/
def trimTerminator (line : List Char) : List Char :=
  match line.reverse with
  | '\n' :: '\r' :: rest => rest.reverse
  | '\n' :: rest => rest.reverse
  | _ => line

def lines (text : List Char) : List (List Char) := (splitLines text).map trimTerminator

def spaces (count : Nat) : String := String.ofList (List.replicate count ' ')

def padLeft (width : Nat) (text : String) : String := spaces (width - text.length) ++ text

end Homoicon.Text
