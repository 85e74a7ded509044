import TypeExpr.Callable

/-!
# Requests

A request asks for one node to be built or for one question about a node to be answered.
Evaluating it gives an outcome, or fails: because what was asked for cannot be built, or, if
a callable was asked for without a single parameter, because the request breaks the
precondition of building one. The second failure is no answer to the request. It ends
whatever the request was part of.
-/

namespace TypeExpr

/-- The operations that a request can ask for, in the order of their index. -/
inductive Op where
  | list
  | typeOf
  | tuple
  | callable
  | isAny
  | isNone
  | isString
  deriving DecidableEq

namespace Op

/-- All operations, each at its index. -/
def all : List Op :=
  [list, typeOf, tuple, callable, isAny, isNone, isString]

/-- The name of an operation. -/
def name : Op → String
  | list => "list"
  | typeOf => "type_of"
  | tuple => "tuple"
  | callable => "callable"
  | isAny => "is_any"
  | isNone => "is_none"
  | isString => "is_string"

/-- The operation with this name. -/
def ofName? (name : String) : Option Op :=
  all.find? fun op => op.name = name

/-- The operation with this index. -/
def ofIndex? (index : Nat) : Option Op :=
  all[index]?

end Op

/-- A request. -/
inductive Request where
  | list (name : String)
  | typeOf (value : Node)
  | tuple (base : String) (params : List Node)
  | callable (base : String) (params : List Parameter)
  | isAny (value : Node)
  | isNone (value : Node)
  | isString (value : Node)
  deriving DecidableEq

namespace Request

/-- The operation that a request asks for. -/
def op : Request → Op
  | list _ => .list
  | typeOf _ => .typeOf
  | tuple .. => .tuple
  | callable .. => .callable
  | isAny _ => .isAny
  | isNone _ => .isNone
  | isString _ => .isString

/-- Why a request has no outcome. -/
inductive Failure where
  /-- The node cannot be built. -/
  | rejected (error : CallableError)
  /-- A callable was asked for without a parameter. -/
  | noParameters
  deriving DecidableEq

/-- What is said when a callable is asked for without a parameter. -/
def noParametersText : String :=
  "Callable needs at least one parameter"

/-- The result of building a node, as the result of a request. -/
def ofBuilt : Except CallableError Node → Except Failure Outcome
  | .ok node => .ok (.node node)
  | .error error => .error (.rejected error)

/-- Evaluates a request. -/
def evaluate : Request → Logged (Except Failure Outcome)
  | list name => .quiet (.ok (.node (.listOf name)))
  | typeOf value => .quiet (.ok (.node value.typeOf))
  | tuple base params => .quiet (.ok (.node (.tupleOf base params)))
  | callable _ [] => .quiet (.error .noParameters)
  | callable base (first :: more) => (Callable.build base first more).map ofBuilt
  | isAny value => .quiet (.ok (.flag value.isAny))
  | isNone value => .quiet (.ok (.flag value.isNone))
  | isString value => .quiet (.ok (.flag value.isString))

end Request

end TypeExpr
