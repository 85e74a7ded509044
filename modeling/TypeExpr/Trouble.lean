import TypeExpr.Decode.Basic
import TypeExpr.LocatedError

/-!
# Trouble

What ended a run: the cause, and the contexts that were added on the way up, which say what
was being done. Together they are a chain, with the last context at its head and the cause at its
end. A context helps whoever handles the trouble in a program. The report for the user is made
from the chain: it looks for a located error, and takes the last link if it finds none.
-/

namespace TypeExpr

/-- Why a file could not be read. -/
inductive FileError where
  | notFound
  | notADirectory
  | isADirectory
  | nameTooLong
  /-- The name holds a null character. -/
  | badName
  | notText
  /-- Any other reason, in the words of the system. -/
  | other (text : String)
  deriving DecidableEq

/-- The wording of a file error. -/
def FileError.text : FileError → String
  | notFound => "No such file or directory (os error 2)"
  | notADirectory => "Not a directory (os error 20)"
  | isADirectory => "Is a directory (os error 21)"
  | nameTooLong => "File name too long (os error 36)"
  | badName => "file name contained an unexpected NUL byte"
  | notText => "stream did not contain valid UTF-8"
  | other text => text

/-- What is at the bottom of trouble. -/
inductive Cause where
  | located (error : LocatedError)
  | read (error : ReadError)
  | file (error : FileError)
  /-- Something that is known by its wording only. -/
  | plain (text : String)
  deriving DecidableEq

/-- The wording of a cause. -/
def Cause.text : Cause → String
  | located error => error.text
  | read error => error.text
  | file error => error.text
  | plain text => text

/-- A link of the chain of trouble. -/
inductive Link where
  /-- What was being done. -/
  | context (text : String)
  /-- What was wrong. -/
  | cause (cause : Cause)
  deriving DecidableEq

namespace Link

/-- The wording of a link. -/
def text : Link → String
  | context said => said
  | cause bottom => bottom.text

/-- The located error that a link is, if it is one. -/
def located? : Link → Option LocatedError
  | cause (.located error) => some error
  | _ => none

end Link

/-- A cause with its contexts, the last one that was added first. -/
structure Trouble where
  contexts : List String
  cause : Cause
  deriving DecidableEq

namespace Trouble

/-- A cause without context. -/
def ofCause (cause : Cause) : Trouble :=
  ⟨[], cause⟩

/-- Adds a context. -/
def inContext (trouble : Trouble) (context : String) : Trouble :=
  ⟨context :: trouble.contexts, trouble.cause⟩

/-- The chain, from the last context down to the cause. -/
def links (trouble : Trouble) : List Link :=
  trouble.contexts.map .context ++ [.cause trouble.cause]

/-- What there is to say, from the last context down to the cause. -/
def chain (trouble : Trouble) : List String :=
  trouble.links.map Link.text

/-- The report to the user, who asked for this file. It is that of the first located error in the
chain, and if there is none, it has the wording of the last link. -/
def report (trouble : Trouble) (path : String) : String :=
  match trouble.links.findSome? Link.located? with
  | some error => error.report
  | none =>
    "error: " ++ trouble.links.getLast?.elim "" Link.text ++ "\n  --> " ++ path ++ "\n"

end Trouble

end TypeExpr
