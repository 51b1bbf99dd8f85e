/-! Markers spelled by the text of several tokens. -/
namespace Homoicon

/-- How much of a marker the latest tokens spell, by tokens and by characters. -/
structure Watch (α : Type) where
  marker : String
  meaning : α
  tokens : Nat := 0
  chars : Nat := 0
deriving Repr

namespace Watch
variable {α : Type}

def reset (w : Watch α) : Watch α := { w with tokens := 0, chars := 0 }

def continues (w : Watch α) (text : String) : Bool :=
  text != "" && text.toList.isPrefixOf (w.marker.toList.drop w.chars)

def completes (w : Watch α) (text : String) : Bool :=
  w.continues text && w.marker.length ≤ w.chars + text.length

/-- The next token. One that does not continue the marker is forgotten with all before it, and so is
one that completes it. -/
def advance (w : Watch α) (text : String) : Watch α :=
  if w.continues text && !w.completes text then
    { w with tokens := w.tokens + 1, chars := w.chars + text.length }
  else w.reset

def firstComplete (watches : List (Watch α)) (text : String) : Option (Watch α × Nat) :=
  (watches.find? (·.completes text)).map fun w => (w, w.tokens + 1)

end Watch
end Homoicon
