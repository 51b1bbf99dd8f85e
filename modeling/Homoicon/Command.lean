import Homoicon.Diagnostic
import Homoicon.Grammar.Reading
import Homoicon.Node.Json

/-! The commands: to check a file, to list its tokens, and to write it out again. -/
namespace Homoicon

inductive Command
  | usage
  | check (file : String)
  | tokens (json : Bool) (file : String)
  | format (marked : Bool) (file : String)
deriving DecidableEq, Repr

structure Outcome where
  code : UInt8 := 0
  output : String := ""
  errors : String := ""
deriving DecidableEq, Repr

namespace Command

/-- Arguments up to and after a double dash: options, and the others in order. -/
def split : List String → List String × List String
  | [] => ([], [])
  | "--" :: rest => ([], rest)
  | arg :: rest =>
    let (options, others) := split rest
    if arg.startsWith "-" && arg != "-" then (arg :: options, others) else (options, arg :: others)

/-- The command that arguments ask for, if they ask for one. -/
def ofArgs (args : List String) : Option Command :=
  let (options, others) := split args
  let options := options.filter (· != "--debug")
  match others, options with
  | [], [] => some usage
  | ["check", file], [] => some (check file)
  | ["tokens", file], [] => some (tokens false file)
  | ["tokens", file], ["--json"] => some (tokens true file)
  | ["format", file], [] => some (format false file)
  | ["format", file], ["-R"] | ["format", file], ["--raw-control-chars"] => some (format true file)
  | _, _ => none

/-- The file a command reads; a dash stands for standard input. -/
def file? : Command → Option String
  | usage => none
  | check file | tokens _ file | format _ file => some file

def usageText : String :=
  "usage: backolon [COMMAND] ...\nTry '--help' for more information.\n"

def tokenLine (token : Node) : String :=
  s!"{token.location.line + 1}:{token.location.column + 1}\t{token.kind.name}\t" ++
    Text.quoted token.unparse ++ "\n"

/-- Goes on with the tree of a text, or reports why there is none. -/
def withTree (text file : String) (next : Node → Outcome) : Outcome :=
  match parse text file with
  | .ok tree => next tree
  | .error e => { code := 1, errors := e.toDiagnostic.full text .identity ++ "\n" }

def runText (text : String) : Command → Outcome
  | usage => { output := usageText }
  | check file => withTree text file fun _ => {}
  | tokens json file =>
    let tokens := tokenize text file
    if json then { output := (Json.list (tokens.map Node.toJson)).pretty 0 ++ "\n" }
    else { output := String.join (tokens.map tokenLine) }
  | format marked file =>
    withTree text file fun tree =>
      { output := if marked then tree.render (.highlighted .terminal) else tree.unparse }

def run (contents : Contents) (command : Command) : Outcome :=
  match command.file? with
  | none => command.runText ""
  | some file =>
    match contents.load file with
    | .ok text => command.runText text
    | .error e => { code := 1, errors := e.concise .identity ++ "\n" }

end Command
end Homoicon
