import Homoicon.Decimal.Layout
import Homoicon.Text.Lines

/-! JSON values and their two written forms. -/
namespace Homoicon

/-- Fields are written in the order they are listed. -/
inductive Json
  | null
  | bool (value : Bool)
  | number (value : Float)
  | natural (value : Nat)
  | string (value : String)
  | list (items : List Json)
  | record (fields : List (String × Json))

namespace Json

/-- Plain between a hundred-thousandth and ten to the sixteenth, whole numbers with a point, ties to
the even digit. -/
def layout : Decimal.Layout := ⟨.even, fun exponent => -5 ≤ exponent ∧ exponent ≤ 15, true⟩

example : layout.display 1e15 = "1000000000000000.0" := by decide +kernel
example : layout.display 1e16 = "1e+16" := by decide +kernel
example : layout.display 0.00001 = "0.00001" := by decide +kernel
example : layout.display 1.2345e-6 = "1.2345e-6" := by decide +kernel
example : layout.display (-0.0) = "-0.0" := by decide +kernel

def numberText (x : Float) : String :=
  match Decimal.parts x with
  | .finite .. => layout.display x
  | _ => "null"

def escapeChar (c : Char) : List Char :=
  if c = '"' then ['\\', '"']
  else if c = '\\' then ['\\', '\\']
  else if c = '\x08' then ['\\', 'b']
  else if c = '\x0c' then ['\\', 'f']
  else if c = '\n' then ['\\', 'n']
  else if c = '\r' then ['\\', 'r']
  else if c = '\t' then ['\\', 't']
  else if c.toNat < 0x20 then
    ['\\', 'u', '0', '0', Nat.digitChar (c.toNat / 16), Nat.digitChar (c.toNat % 16)]
  else [c]

def stringText (s : String) : String :=
  String.ofList ('"' :: s.toList.flatMap escapeChar ++ ['"'])

mutual

/-- Without spaces. -/
def compact : Json → String
  | null => "null"
  | bool value => if value then "true" else "false"
  | number value => numberText value
  | natural value => toString value
  | string value => stringText value
  | list items => "[" ++ ",".intercalate (compactItems items) ++ "]"
  | record fields => "\x7b" ++ ",".intercalate (compactFields fields) ++ "\x7d"

def compactItems : List Json → List String
  | [] => []
  | item :: items => compact item :: compactItems items

def compactFields : List (String × Json) → List String
  | [] => []
  | (key, value) :: fields => (stringText key ++ ":" ++ compact value) :: compactFields fields

end

/-- Parts on lines of their own, two spaces further in than what surrounds them. -/
def indented (opener closer : String) (indent : Nat) (parts : List String) : String :=
  if parts.isEmpty then opener ++ closer
  else
    let margin := "\n" ++ Text.spaces (indent + 2)
    opener ++ margin ++ ("," ++ margin).intercalate parts ++
      "\n" ++ Text.spaces indent ++ closer

mutual

/-- One item or field a line. -/
def pretty (indent : Nat) : Json → String
  | null => "null"
  | bool value => if value then "true" else "false"
  | number value => numberText value
  | natural value => toString value
  | string value => stringText value
  | list items => indented "[" "]" indent (prettyItems (indent + 2) items)
  | record fields => indented "\x7b" "\x7d" indent (prettyFields (indent + 2) fields)

def prettyItems (indent : Nat) : List Json → List String
  | [] => []
  | item :: items => pretty indent item :: prettyItems indent items

def prettyFields (indent : Nat) : List (String × Json) → List String
  | [] => []
  | (key, value) :: fields =>
    (stringText key ++ ": " ++ pretty indent value) :: prettyFields indent fields

end

end Json
end Homoicon
