import TypeExpr.JsonForm

/-!
# Outcomes

What a request evaluates to: the node that was built, or the answer to a question.
-/

namespace TypeExpr

/-- The result of a request. -/
inductive Outcome where
  | node (node : Node)
  | flag (value : Bool)
  deriving DecidableEq

namespace Outcome

/-- The surface text of an outcome. -/
def text : Outcome → String
  | node n => n.text
  | flag true => "true"
  | flag false => "false"

/-- The JSON form of an outcome: that of the node, or a truth value. -/
def toJson : Outcome → Json
  | node n => n.toJson
  | flag b => .bool b

end Outcome

end TypeExpr
