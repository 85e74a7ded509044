import TypeExpr.CallableError
import TypeExpr.Journal
import TypeExpr.Node.Shorthand

/-!
# Callables

A callable annotation has two parameters, the argument types and the return type. The
argument types are a bracketed list; if they are left open, by an ellipsis that arrives here
as the dynamic type, the node cannot be a callable, which lists its arguments, and stays a
generic. Two spellings say that there are no arguments: the empty list, and the list of the
bottom type alone. The return type may be missing and is then taken to be the dynamic type.

The number of parameters is looked at first, then the return type, then the arguments, and
the first that is wrong is the error.
-/

namespace TypeExpr.Callable

/-- An ellipsis inside the argument list. What was meant is most likely an ellipsis in the
place of the list. -/
def ellipsisMisuse (ret : Node) : CallableError :=
  .shape ("Invalid Callable args, did you mean Callable[..., " ++
    (if ret.isAny then "Any" else ret.text) ++ "]?")

/-- An argument list in the place of the return type. -/
def returnIsList (list : Parameter) : CallableError :=
  .shape ("Invalid Callable return type, expected a single type (got " ++
    list.text ++ ")")

/-- The callable with the listed arguments. -/
def ofItems (base : String) (items : List Argument) (ret : Node) : Except CallableError Node :=
  if items = [] ∨ items = [.type .nothing] then .ok (.applied .callable base [ret])
  else
    match items.mapM Argument.node? with
    | some nodes => .ok (.applied .callable base (nodes ++ [ret]))
    | none => .error (ellipsisMisuse ret)

/-- The node for arguments and a return type. -/
def ofArguments (base : String) (args : Parameter) (ret : Node) :
    Logged (Except CallableError Node) :=
  match args with
  | .args items => .quiet (ofItems base items ret)
  | .type node =>
    if node.isAny then
      ⟨.ok (.applied .generic base [node, ret]), [.unknownArguments base node ret]⟩
    else .quiet (.error (.firstArgument node.text))

/-- **The node for a callable annotation**, given its first parameter and the others. The
number of parameters is checked first, then the return type, then the arguments. -/
def build (base : String) (first : Parameter) :
    List Parameter → Logged (Except CallableError Node)
  | [] => (ofArguments base first .anything).after [.missingReturn base first]
  | [.type ret] => ofArguments base first ret
  | [.args items] => .quiet (.error (returnIsList (.args items)))
  | more => .quiet (.error (.arity (more.length + 1)))

end TypeExpr.Callable
