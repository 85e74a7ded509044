import TypeExpr.CommandLine

/-!
# The program

Gets the bytes of the request file, and prints what the run says.
-/

namespace TypeExpr

/-- The reason for which the system has no bytes. The number of an error is negated if it
comes from opening the file, and not if it comes from reading it. -/
def fileError (error : IO.Error) : FileError :=
  match error with
  | .noFileOrDirectory .. => .notFound
  | .inappropriateType _ code _ => if code = 21 then .isADirectory else .notADirectory
  | .invalidArgument _ code _ => if code = -36 then .nameTooLong else .other (toString error)
  | _ => .other (toString error)

/-- The bytes of a file. -/
def readBytes (path : String) : IO (Except FileError ByteArray) := do
  try
    return .ok (← IO.FS.readBinFile path)
  catch error =>
    return .error (fileError error)

end TypeExpr

open TypeExpr in
/-- Runs the program on its arguments. -/
def main (args : List String) : IO UInt32 := do
  let run ← match Invocation.ofArgs? args with
    | some invocation => pure (invocation.run (← readBytes invocation.file))
    | none => pure .usage
  IO.print run.output
  IO.eprint run.errorOutput
  return UInt32.ofNat run.exitCode
