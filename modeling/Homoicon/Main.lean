import Homoicon.Command

/-! The program. -/
namespace Homoicon

partial def readAll (stream : IO.FS.Stream) (read : ByteArray) : IO ByteArray := do
  let chunk ← stream.read 65536
  if chunk.isEmpty then return read else readAll stream (read ++ chunk)

/-- Reads a file, or standard input for a dash. -/
def readContents (file : String) : IO Contents := do
  try
    if file = "-" then return .bytes (← readAll (← IO.getStdin) .empty)
    else return .bytes (← IO.FS.readBinFile file)
  catch
    | .noFileOrDirectory .. => return .missing
    | .inappropriateType .. => return .directory
    | e => return .failed (toString e)

end Homoicon

open Homoicon

def main (args : List String) : IO UInt32 := do
  let some command := Command.ofArgs args
    | IO.eprint Command.usageText
      return 2
  let contents ← match command.file? with
    | some file => readContents file
    | none => pure (.bytes .empty)
  let outcome := command.run contents
  IO.print outcome.output
  IO.eprint outcome.errors
  return outcome.code.toUInt32
