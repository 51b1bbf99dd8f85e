import Homoicon.Node

/-! Patterns are written as nodes; these are their forms. -/
namespace Homoicon.Form

/-- A pattern has no source text and no place. -/
def pattern (kind : Kind) (children : List Node) (value : Value) : Node :=
  .new kind children value {} .unknown

def sequence (children : List Node) : Node := pattern .patternSequence children .none

/-- Any one child; earlier ones have priority. -/
def alternatives (children : List Node) : Node := pattern .patternAlternatives children .none

/-- The children as a sequence, or nothing. -/
def optional (children : List Node) (greedy : Bool) : Node :=
  pattern .patternOptional children (.flag greedy)

/-- The children as a sequence, one or more times. -/
def repeated (children : List Node) (greedy : Bool) : Node :=
  pattern .patternRepeat children (.flag greedy)

/-- Nothing, at the start of the input or at its end. -/
def anchor (start : Bool) : Node := pattern .patternAnchor [] (.flag start)

def matchType (kind : Kind) : Node := pattern .patternMatchType [] (.kind kind)

/-- One node of the kind and hash of `target`. -/
def matchValue (target : Node) : Node := pattern .patternMatchValue [target] .none

/-- What `inner` matches, recorded under a name. -/
def capture (name : String) (inner : Node) : Node :=
  pattern .patternCapture [.name name .unknown, inner] .none

end Homoicon.Form
