import Homoicon.Misuse

/-! Maps from nodes to nodes, kept in order of their keys' hashes. -/
namespace Homoicon

/-- A child that was read although the node has not so many. -/
structure MissingChild where
  count : Nat
  index : Nat
deriving DecidableEq, Repr

def MissingChild.message (m : MissingChild) : String :=
  s!"index out of bounds: the len is {m.count} but the index is {m.index}"

def Node.child (node : Node) (index : Nat) : Except MissingChild Node :=
  match node.children[index]? with
  | some child => .ok child
  | none => .error ⟨node.children.length, index⟩

namespace Table

/-- Why an operation failed: it was given a wrong node, or an entry lacks its key or its value. -/
inductive Failure
  | misuse (misuse : Misuse)
  | malformed (missing : MissingChild)
deriving DecidableEq, Repr

/-- A map without entries. Maps have no hash. -/
def empty (location : Location) : Node :=
  .build .map [] .none ⟨"[", "]", ", "⟩ location false true

def isMap (node : Node) : Bool := node.kind == .map

/-- The entry of a key; its value stays out of its hash. -/
def entry (key value : Node) : Node :=
  .build .keyValuePair [key, value] .none { joiner := ": " } key.location true false

def keyOf (entry : Node) : Except MissingChild Node := entry.child 0

def entries (map : Node) (operation : String) : Except Misuse (List Node) :=
  if isMap map then .ok map.children else .error ⟨.notAMap operation, map.location⟩

def keyHash (key : Node) : Except Misuse UInt64 :=
  match key.hash with
  | some hash => .ok hash
  | none => .error ⟨.unhashable, key.location⟩

/-- Whether an entry's key comes before the keys of a hash. -/
def isBefore (hash : UInt64) (entry : Node) : Except MissingChild Bool :=
  (keyOf entry).map fun key => key.hash.getD 0 < hash

/-- Halves the `size` entries from `base` on until one is left. -/
def bisect (entries : List Node) (hash : UInt64) (base size : Nat) : Except MissingChild Nat :=
  if size ≤ 1 then .ok base
  else do
    let half := size / 2
    let before ← match entries[base + half]? with
      | some entry => isBefore hash entry
      | none => .ok false
    bisect entries hash (if before then base + half else base) (size - half)
termination_by size
decreasing_by omega

/-- The number of entries whose keys come before the keys of a hash, when they are in order. -/
def lowerBound (entries : List Node) (hash : UInt64) : Except MissingChild Nat := do
  let base ← bisect entries hash 0 entries.length
  match entries[base]? with
  | some entry => do
    let before ← isBefore hash entry
    .ok (if before then base + 1 else base)
  | none => .ok 0

/-- Where a key is, or where it belongs. -/
inductive Slot
  | found (index : Nat)
  | vacant (index : Nat)
deriving DecidableEq, Repr

/-- Looks for a key among the entries from `index` on whose keys have its hash. -/
def scanRun (key : Node) (hash : UInt64) (index : Nat) : List Node → Except MissingChild Slot
  | [] => .ok (.vacant index)
  | entry :: rest => do
    let candidate ← keyOf entry
    if candidate.hash ≠ some hash then .ok (.vacant index)
    else if candidate.sameStructure key then .ok (.found index)
    else scanRun key hash (index + 1) rest

def locate (entries : List Node) (key : Node) (hash : UInt64) : Except MissingChild Slot := do
  let first ← lowerBound entries hash
  scanRun key hash first (entries.drop first)

/-- The entries of a map and the place of a key among them. -/
def search (map key : Node) (operation : String) : Except Failure (List Node × Slot) := do
  let entries ← (entries map operation).mapError .misuse
  let hash ← (keyHash key).mapError .misuse
  let slot ← (locate entries key hash).mapError .malformed
  .ok (entries, slot)

def get? (map key : Node) : Except Failure (Option Node) := do
  match ← search map key "get from" with
  | (entries, .found index) =>
    match entries[index]? with
    | some entry => (entry.child 1).map some |>.mapError .malformed
    | none => .ok none
  | (_, .vacant _) => .ok none

/-- The map with a value for a key, in place of any it had. -/
def insert (map key value : Node) : Except Failure Node := do
  match ← search map key "insert into" with
  | (entries, .found index) => .ok (map.withChildren (entries.set index (entry key value)))
  | (entries, .vacant index) => .ok (map.withChildren (entries.insertIdx index (entry key value)))

/-- The map without a key; there may be none. -/
def erase (map key : Node) : Except Failure Node := do
  match ← search map key "remove from" with
  | (entries, .found index) => .ok (map.withChildren (entries.eraseIdx index))
  | (_, .vacant _) => .ok map

/-- What an operation answers that changes a map in place, and the map after it: the new one, or the
map as it was if the operation failed. -/
def inPlace (operation : Node → Except Failure Node) (map : Node) : Except Failure Unit × Node :=
  match operation map with
  | .ok changed => (.ok (), changed)
  | .error failure => (.error failure, map)

def insertInPlace (map key value : Node) : Except Failure Unit × Node :=
  inPlace (insert · key value) map

def eraseInPlace (map key : Node) : Except Failure Unit × Node := inPlace (erase · key) map

end Table
end Homoicon
