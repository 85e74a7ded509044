import TypeExpr.FileSet
import TypeExpr.RequestFile

/-!
# The command line

The program is called with one request file, and prints the outcome of each request on a
line of its own: as surface text, or as JSON if that is asked for. It prints all outcomes or
none. If the file cannot be read or a request fails, there is a report instead, and nothing
on standard output.
-/

namespace TypeExpr

/-- What the program was called to do. -/
structure Invocation where
  /-- The path of the request file. -/
  file : String
  /-- Whether outcomes are printed as JSON. -/
  json : Bool
  deriving DecidableEq

namespace Invocation

/-- What has been seen of the arguments. -/
structure Seen where
  file : Option String := none
  json : Bool := false
  /-- Everything that follows is a file name. -/
  namesOnly : Bool := false

/-- Whether an argument is an option by its looks. A dash alone is a file name. -/
def isOption (arg : String) : Bool :=
  arg.toList.head? = some '-' && arg ≠ "-"

/-- Goes through the arguments. Nothing may come twice, and the file needs a name. -/
def ofArgsFrom (seen : Seen) : List String → Option Invocation
  | [] => seen.file.map fun file => ⟨file, seen.json⟩
  | arg :: args =>
    if !seen.namesOnly && isOption arg then
      if arg = "--" then ofArgsFrom { seen with namesOnly := true } args
      else if arg = "--json" ∧ seen.json = false then ofArgsFrom { seen with json := true } args
      else none
    else if arg ≠ "" ∧ seen.file = none then ofArgsFrom { seen with file := some arg } args
    else none

/-- What the arguments ask for, unless they are not those of the program. -/
def ofArgs? (args : List String) : Option Invocation :=
  ofArgsFrom {} args

end Invocation

/-- How a run of the program ended. -/
inductive Run where
  /-- The program was called in a wrong way. -/
  | usage
  /-- All outcomes were printed. -/
  | completed (output : String)
  /-- There is a report instead. -/
  | failed (report : String)
  /-- The run was given up, for a callable without parameters. -/
  | aborted
  deriving DecidableEq

namespace Run

/-- The exit code of a run. -/
def exitCode : Run → Nat
  | completed _ => 0
  | failed _ => 1
  | usage => 2
  | aborted => 101

/-- What a run prints on standard output. -/
def output : Run → String
  | completed output => output
  | _ => ""

/-- What a run prints on standard error. For a wrong call the wording is that of the parser of
arguments, and the line stands in its place; for a run that was given up the message stands without
what is printed around it. -/
def errorOutput : Run → String
  | completed _ => ""
  | failed report => report
  | usage => "usage: [--json] FILE\n"
  | aborted => Request.noParametersText ++ "\n"

end Run

namespace Invocation

/-- The line that shows an outcome. -/
def lineOf (invocation : Invocation) (outcome : Outcome) : String :=
  (if invocation.json then outcome.toJson.compact else outcome.text) ++ "\n"

/-- What the requests of the file evaluate to, given what the attempt to get its bytes
gave. -/
def evaluate (invocation : Invocation) (bytes : Except FileError ByteArray) :
    Logged (Except RequestFile.Failure (List Outcome)) :=
  RequestFile.evaluateLoaded (RequestFile.load invocation.file bytes)

/-- Runs the program. -/
def run (invocation : Invocation) (bytes : Except FileError ByteArray) : Run :=
  match (invocation.evaluate bytes).value with
  | .ok outcomes => .completed (String.join (outcomes.map invocation.lineOf))
  | .error (.trouble trouble) => .failed (trouble.report invocation.file)
  | .error .noParameters => .aborted

end Invocation

/-- Runs the program on its arguments, where it can see these files. -/
def Run.ofArgs (args : List String) (files : FileSet) : Run :=
  match Invocation.ofArgs? args with
  | some invocation => invocation.run (files.read invocation.file)
  | none => .usage

end TypeExpr
