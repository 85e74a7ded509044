import TypeExpr.Node

/-!
# Parameters of a callable annotation

What stands between the brackets of `Callable[…]` is read before anyone knows what it
means: each parameter is either a bracketed list of argument types or a single type, and
an ellipsis may have slipped into a list. A bare ellipsis in the place of the argument
types does not appear here. It means "any arguments" and arrives as the dynamic type.
-/

namespace TypeExpr

/-- One element of a bracketed argument list. -/
inductive Argument where
  /-- An argument type. -/
  | type (node : Node)
  /-- An ellipsis inside the brackets. -/
  | ellipsis
  deriving DecidableEq

/-- One parameter of a callable annotation. -/
inductive Parameter where
  /-- A bracketed list of argument types. -/
  | args (items : List Argument)
  /-- A single type. -/
  | type (node : Node)
  deriving DecidableEq

namespace Argument

/-- The surface text of an argument item. -/
def text : Argument → String
  | type node => node.text
  | ellipsis => "..."

/-- The argument type, if the item is one. -/
def node? : Argument → Option Node
  | type node => some node
  | ellipsis => none

end Argument

namespace Parameter

/-- The argument list made of the given types and nothing else. -/
def ofNodes (nodes : List Node) : Parameter :=
  args (nodes.map .type)

/-- The surface text of a parameter. -/
def text : Parameter → String
  | args items => "[" ++ ", ".intercalate (items.map Argument.text) ++ "]"
  | type node => node.text

end Parameter

/-! ### Distinct parameters -/

/-- The positions, counted from `index`, of the parameters that are neither among `seen`
nor equal to an earlier parameter of the list. -/
def Parameter.firstsFrom (seen : List Parameter) (index : Nat) : List Parameter → List Nat
  | [] => []
  | param :: params =>
    if param ∈ seen then firstsFrom seen (index + 1) params
    else index :: firstsFrom (param :: seen) (index + 1) params

/-- **The positions of the parameters that differ from every earlier one.** There are as
many of them as there are distinct parameters in the list. -/
def Parameter.firsts (params : List Parameter) : List Nat :=
  firstsFrom [] 0 params

end TypeExpr
