import Homoicon.Proofs.Pattern.Takes

/-! Depth-first attempts at a pattern, in the order in which backtracking makes them. -/
namespace Homoicon

/-- How far an attempt has come. It knows the lazy repetitions that it has left since the last node,
by their place in the pattern, and whether it has returned to one of them. -/
structure Attempt extends Progress where
  left : List (List Nat)
  returned : Bool

namespace Attempt

def start (offset : Nat) : Attempt := ⟨⟨offset, []⟩, [], false⟩

/-- Past one node, with which what was left before it is forgotten. -/
def past (s : Attempt) : Attempt := { s with toProgress := s.toProgress.past, left := [] }

def opened (s : Attempt) (name : String) (single : Bool) : Attempt :=
  { s with toProgress := s.toProgress.opened name single }

def closed (s : Attempt) (name : String) : Attempt :=
  { s with toProgress := s.toProgress.closed name }

/-- Into the repetition at a place. -/
def entered (s : Attempt) (place : List Nat) : Attempt :=
  { s with returned := s.returned || s.left.contains place }

/-- Out of the lazy repetition at a place. -/
def leaving (s : Attempt) (place : List Nat) : Attempt := { s with left := place :: s.left }

end Attempt

namespace Blueprint

def isTest : Blueprint → Bool
  | matchType _ | matchValue _ => true
  | _ => false

theorem isTest_ofNode (b : Blueprint) (marks : Nat → UInt64) (serial : Nat) :
    (Pattern.ofNode marks serial b.node).isTest = b.isTest := by
  cases b <;> rfl

/-- Rounds of a repetition, up to a number of them. A greedy one tries another round before it is
left, a lazy one is left first. -/
def rounds (round : Attempt → List Attempt) (greedy : Bool) (place : List Nat) :
    Nat → Attempt → List Attempt
  | 0, _ => []
  | n + 1, s => (round s).flatMap fun s' =>
    if greedy then rounds round greedy place n s' ++ [s']
    else s'.leaving place :: rounds round greedy place n s'

mutual

/-- The ways in which a pattern matches, in the order in which a depth-first search finds them. The
place of a pattern lists the items on the way to it from the root, the last one first. A repetition
makes as many rounds as there are nodes to come, as each takes one at least. -/
def attempts (source : List Node) : Blueprint → List Nat → Attempt → List Attempt
  | sequence items => fun place => attemptsAll source items place 0
  | alternatives items => fun place => attemptsAny source items place 0
  | optional items greedy => fun place s =>
    if greedy then attemptsAll source items place 0 s ++ [s]
    else s :: attemptsAll source items place 0 s
  | repeated items greedy => fun place s =>
    rounds (attemptsAll source items place 0) greedy place (source.length - s.offset)
      (s.entered place)
  | anchor start => fun _ s => if s.offset = (if start then 0 else source.length) then [s] else []
  | matchType kind => fun _ s =>
    match source[s.offset]? with
    | some node => if node.kind = kind then [s.past] else []
    | none => []
  | matchValue target => fun _ s =>
    match source[s.offset]? with
    | some node =>
      if node.kind = target.kind ∧ node.hash.isSome ∧ node.hash = target.hash then [s.past] else []
    | none => []
  | capture name inner => fun place s =>
    (attempts source inner (0 :: place) (s.opened name inner.isTest)).map (·.closed name)

/-- Patterns one after the other, the first of which is item `k` of the group at a place. -/
def attemptsAll (source : List Node) : List Blueprint → List Nat → Nat → Attempt → List Attempt
  | [] => fun _ _ s => [s]
  | item :: items => fun place k s =>
    (attempts source item (k :: place) s).flatMap (attemptsAll source items place (k + 1))

/-- Any one of several patterns, earlier ones first. -/
def attemptsAny (source : List Node) : List Blueprint → List Nat → Nat → Attempt → List Attempt
  | [] => fun _ _ _ => []
  | item :: items => fun place k s =>
    attempts source item (k :: place) s ++ attemptsAny source items place (k + 1) s

end

/-- What the group that stands for a whole pattern runs. -/
def parts : Blueprint → List Blueprint
  | sequence items => items
  | b => [b]

/-- The ways in which a whole pattern matches from an offset. -/
def attemptsFrom (source : List Node) (b : Blueprint) (offset : Nat) : List Attempt :=
  attemptsAll source b.parts [] 0 (.start offset)

end Blueprint
end Homoicon
