/-!
# Errors of callable annotations

Of all nodes only callables have rules for how they are written, so only a callable
annotation can be wrong: in the number of its parameters, in the shape of one of them, or in
a first parameter that is no argument list.
-/

namespace TypeExpr

/-- The family that an error belongs to. -/
inductive Category where
  | typeError
  deriving DecidableEq

/-- The name of a category. -/
def Category.text : Category → String
  | typeError => "TypeError"

/-- What is wrong with a callable annotation. -/
inductive CallableError where
  /-- The number of parameters. -/
  | arity (count : Nat)
  /-- The shape of a parameter, in the words of the message. -/
  | shape (message : String)
  /-- The first parameter, which is shown as it was given. -/
  | firstArgument (got : String)
  deriving DecidableEq

namespace CallableError

/-- The message of an error. -/
def message : CallableError → String
  | arity count => "Expected 2 parameters to Callable, got " ++ toString count
  | shape message => message
  | firstArgument got =>
    "First argument to Callable must be a list of argument types (got " ++ got ++ ")"

/-- What is wrong with an annotation is wrong with a type. -/
def category : CallableError → Category
  | _ => .typeError

end CallableError

end TypeExpr
