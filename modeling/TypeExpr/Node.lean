/-!
# Type expressions

A type expression is a tree. Its leaves are names and two special types, the dynamic
type and the bottom type; an inner node applies a base, given by its fully qualified
name, to a list of parameters. What the parameters *mean* is the node's form: type
arguments of a generic, element types by position of a tuple, or argument types followed
by the return type of a callable.

The surface text of a node is what a reader of type annotations expects to see,
`typing.List[int]` or `typing.Callable[[int, str], bool]`. The form shows in it in one
place only: a callable sets its arguments apart in brackets of their own. Generics and
tuples are written alike.

Nodes are compared structurally. Equality of trees whose nodes hold lists is decided
together with equality of the lists, so the two are defined side by side, and the same
goes for the surface text.
-/

namespace TypeExpr

/-- What the parameters of an applied base mean. -/
inductive Form where
  /-- Type arguments, in order. -/
  | generic
  /-- Each position carries its own element type. -/
  | tuple
  /-- Argument types followed by the return type. -/
  | callable
  deriving DecidableEq

/-- A type expression. -/
inductive Node where
  /-- A type known by its fully qualified name. -/
  | named (name : String)
  /-- A base applied to parameters. -/
  | applied (form : Form) (base : String) (params : List Node)
  /-- The dynamic type. -/
  | anything
  /-- The bottom type. -/
  | nothing

namespace Node

/-- The base of a node that has parameters, even if their list is empty. -/
def base? : Node → Option String
  | applied _ base _ => some base
  | _ => none

/-- The parameters of a node, none for a leaf. -/
def params : Node → List Node
  | applied _ _ params => params
  | _ => []

/-! ### Structural equality -/

mutual

/-- Equality of nodes is decided by walking both trees. -/
def decEq : (m n : Node) → Decidable (m = n)
  | named a, named b =>
    if h : a = b then .isTrue (by rw [h]) else .isFalse (by simp [h])
  | applied f a ms, applied g b ns =>
    if h : f = g ∧ a = b then
      match decEqList ms ns with
      | .isTrue hs => .isTrue (by rw [h.1, h.2, hs])
      | .isFalse hs => .isFalse (by simp [hs])
    else .isFalse (by simp only [applied.injEq]; exact fun e => h ⟨e.1, e.2.1⟩)
  | anything, anything => .isTrue rfl
  | nothing, nothing => .isTrue rfl
  | named _, applied .. => .isFalse (by simp)
  | named _, anything => .isFalse (by simp)
  | named _, nothing => .isFalse (by simp)
  | applied .., named _ => .isFalse (by simp)
  | applied .., anything => .isFalse (by simp)
  | applied .., nothing => .isFalse (by simp)
  | anything, named _ => .isFalse (by simp)
  | anything, applied .. => .isFalse (by simp)
  | anything, nothing => .isFalse (by simp)
  | nothing, named _ => .isFalse (by simp)
  | nothing, applied .. => .isFalse (by simp)
  | nothing, anything => .isFalse (by simp)

/-- Equality of parameter lists, position by position. -/
def decEqList : (ms ns : List Node) → Decidable (ms = ns)
  | [], [] => .isTrue rfl
  | [], _ :: _ => .isFalse (by simp)
  | _ :: _, [] => .isFalse (by simp)
  | m :: ms, n :: ns =>
    match decEq m n with
    | .isTrue h =>
      match decEqList ms ns with
      | .isTrue hs => .isTrue (by rw [h, hs])
      | .isFalse hs => .isFalse (by simp [hs])
    | .isFalse h => .isFalse (by simp [h])

end

instance : DecidableEq Node := decEq

end Node

/-! ### Surface text -/

/-- A base with its parameters in brackets, given the parameters' texts. A callable sets
its arguments apart from the return type, which is the last parameter; without any
parameter it has only its own brackets. -/
def Form.bracketed : Form → (base : String) → (params : List String) → String
  | .callable, base, params =>
    match params.getLast? with
    | some ret => base ++ "[[" ++ ", ".intercalate params.dropLast ++ "], " ++ ret ++ "]"
    | none => base ++ "[]"
  | _, base, params => base ++ "[" ++ ", ".intercalate params ++ "]"

namespace Node

mutual

/-- The surface text of a node. -/
def text : Node → String
  | named name => name
  | applied form base params => form.bracketed base (texts params)
  | anything => "Any"
  | nothing => "nothing"

/-- The surface texts of a list of nodes. -/
def texts : List Node → List String
  | [] => []
  | node :: nodes => node.text :: texts nodes

end

/-- The texts of a list are the texts of its nodes. -/
@[simp]
theorem texts_eq_map (nodes : List Node) : texts nodes = nodes.map text := by
  induction nodes with
  | nil => rfl
  | cons node nodes ih => rw [texts, ih, List.map_cons]

end Node

end TypeExpr
