import TypeExpr.CallableError
import TypeExpr.Text.Blank

/-!
# Located errors

A build error says what is wrong. Its location says where: a file, perhaps a line of it, and
perhaps the number of the request that failed. The report shows both, and under them the
source line, if the line is known and there is anything on it.

The excerpt has the line number in a gutter. The gutter is as wide as the number, so that
the bars behind it stand in one column.
-/

namespace TypeExpr

/-- A build error and where it arose. -/
structure LocatedError where
  category : Category
  message : String
  file : String
  /-- The number of the source line, from one. -/
  line : Option Nat
  /-- The number of the request, from one. -/
  request : Option Nat
  /-- The source line as it stands in the file. -/
  sourceLine : Option String
  deriving DecidableEq

/-- A build error in a file, outside of any request. -/
def CallableError.located (error : CallableError) (file : String) (line : Option Nat)
    (sourceLine : Option String) : LocatedError :=
  ⟨error.category, error.message, file, line, none, sourceLine⟩

namespace LocatedError

/-- The error, put down to a request. -/
def forRequest (error : LocatedError) (request : Nat) : LocatedError :=
  { error with request := some request }

/-- The error in one line. -/
def text (error : LocatedError) : String :=
  error.category.text ++ ": " ++ error.message

/-- Where the error arose. -/
def location (error : LocatedError) : String :=
  error.file ++
    (match error.line with
      | some line => ":" ++ toString line
      | none => "") ++
    (match error.request with
      | some request => ", request #" ++ toString request
      | none => "")

/-- A line of the source, shown with its number. -/
def excerpt (line : Nat) (source : String) : String :=
  let gutter := String.ofList (List.replicate (Nat.toDigits 10 line).length ' ')
  gutter ++ " |\n" ++ toString line ++ " |   " ++ source ++ "\n" ++ gutter ++ " |\n"

/-- The source line of an error, shown with its number, if both are known and the line is
not blank. -/
def shownSource (error : LocatedError) : String :=
  match error.line, error.sourceLine.map Text.trim with
  | some line, some source => if source = "" then "" else excerpt line source
  | _, _ => ""

/-- The report of an error. -/
def report (error : LocatedError) : String :=
  error.text ++ "\n  --> " ++ error.location ++ "\n" ++ error.shownSource

end LocatedError

end TypeExpr
