import TypeExpr.Node

/-!
# Shorthands and questions

The nodes that annotations need often, and the three questions that are asked of a node: is
it the dynamic type, is it the type of `None`, is it a string type. A special type may be
spelled in more than one way, so the questions go by all of its spellings.
-/

namespace TypeExpr.Node

/-! ### Shorthands -/

/-- A list of the named type, or the bare list type if there is no name. -/
def listOf (name : String) : Node :=
  if name = "" then named "typing.List"
  else applied .generic "typing.List" [named name]

/-- A tuple with an element type for each position. -/
def tupleOf (base : String) (params : List Node) : Node :=
  applied .tuple base params

/-- The type object of a value of this type. -/
def typeOf (node : Node) : Node :=
  applied .generic "type" [node]

/-! ### Questions -/

/-- The names of the string types. -/
def stringTypes : List String :=
  ["str", "bytes", "unicode"]

/-- The dynamic type is a node of its own and has a name as well. -/
def isAny : Node → Bool
  | anything => true
  | named name => name = "typing.Any"
  | _ => false

/-- The type of `None` has two names. -/
def isNone : Node → Bool
  | named name => name = "None" || name = "NoneType"
  | _ => false

/-- A string type is known by its name. -/
def isString : Node → Bool
  | named name => name ∈ stringTypes
  | _ => false

end TypeExpr.Node
