/-! Where nodes come from. -/
namespace Homoicon

/-- A point of a file; lines and columns count from zero. -/
structure Place where
  file : String
  line : Nat
  column : Nat
deriving DecidableEq, Repr

def Place.display (p : Place) : String := s!"{p.file}:{p.line + 1}:{p.column + 1}"

/-- A place and the chain of places that caused it to be reached, nearest first. -/
structure Location extends Place where
  causes : List (String × Place) := []
deriving DecidableEq, Repr

namespace Location

def new (file : String) (line column : Nat) : Location := ⟨⟨file, line, column⟩, []⟩

def unknown : Location := new "about:unknown" 0 0

instance : Inhabited Location := ⟨unknown⟩

/-- The same place, reached because of `message` at `cause`. -/
def causedBy (l : Location) (message : String) (cause : Location) : Location :=
  { l with causes := (message, cause.toPlace) :: cause.causes }

def display (l : Location) : String := l.toPlace.display

end Location
end Homoicon
