/-! Source text as it comes from a file or from standard input. -/
namespace Homoicon

inductive Contents
  | bytes (data : ByteArray)
  | missing
  | directory
  | failed (reason : String)

structure LoadError where
  problem : String
  details : String
  file : String
deriving DecidableEq, Repr

def LoadError.display (e : LoadError) : String := s!"{e.problem}: {e.details}"

/-- The text of a file, which has to be UTF-8. -/
def Contents.load (file : String) : Contents → Except LoadError String
  | bytes data =>
    match String.fromUTF8? data with
    | some text => .ok text
    | none => .error ⟨"Failed reading", "invalid data", file⟩
  | missing => .error ⟨"File not found", "", file⟩
  | directory => .error ⟨"Failed reading", "is a directory", file⟩
  | failed reason => .error ⟨"Failed reading", reason, file⟩

end Homoicon
