import TypeExpr.Json.Value
import TypeExpr.Parameter

/-!
# JSON forms

Each kind of value has one JSON form. A choice is written as an object whose only key
names the alternative; an alternative without content is written as its name alone. The
members of a body stand in a fixed order, so that equal values have equal texts.
-/

namespace TypeExpr

/-- The key that names a form. -/
def Form.key : Form → String
  | generic => "generic"
  | tuple => "tuple"
  | callable => "callable"

namespace Node

mutual

/-- The JSON form of a node. -/
def toJson : Node → Json
  | named name => .object [("named", .text name)]
  | applied form base params =>
    .object [(form.key, .object [("base", .text base), ("params", .array (toJsons params))])]
  | anything => .text "anything"
  | nothing => .text "nothing"

/-- The JSON forms of a list of nodes. -/
def toJsons : List Node → List Json
  | [] => []
  | node :: nodes => node.toJson :: toJsons nodes

end

/-- The JSON forms of a list are those of its nodes. -/
@[simp]
theorem toJsons_eq_map (nodes : List Node) : toJsons nodes = nodes.map toJson := by
  induction nodes with
  | nil => rfl
  | cons node nodes ih => rw [toJsons, ih, List.map_cons]

end Node

/-- The JSON form of an argument item. -/
def Argument.toJson : Argument → Json
  | type node => .object [("type", node.toJson)]
  | ellipsis => .text "ellipsis"

/-- The JSON form of a parameter. -/
def Parameter.toJson : Parameter → Json
  | args items => .object [("args", .array (items.map Argument.toJson))]
  | type node => .object [("type", node.toJson)]

end TypeExpr
