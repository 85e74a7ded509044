import TypeExpr.Decode.Basic
import TypeExpr.JsonForm

/-!
# Decoding nodes

The special types may be written as their names alone; every node may be written as an
object whose key says what it is. The body of an applied base is an object with the base and
the parameters, or the array of these two.

A callable keeps its arguments and its return type in one list, so the list is never empty.
That is checked when the text of the callable has come to its end, and so after its base,
after all of its parameters, and after everything that is wrong with its shape. Inner nodes
are complete nodes, and are checked before the nodes around them.
-/

namespace TypeExpr

open Json (Draft)

/-- The form that a key names. -/
def Form.ofKey? : String → Option Form
  | "generic" => some generic
  | "tuple" => some tuple
  | "callable" => some callable
  | _ => none

@[simp]
theorem Form.ofKey?_key (form : Form) : ofKey? form.key = some form := by
  cases form <;> rfl

namespace Node

/-- The special type that a name alone stands for. -/
def ofName? : String → Option Node
  | "anything" => some anything
  | "nothing" => some nothing
  | _ => none

/-- A node is accepted unless it is a callable without parameters. -/
def checked : Node → Except ReadError Node
  | applied .callable base [] => .error (.noReturnType base)
  | node => .ok node

/-- Decodes a node without parameters, given under the key that says what it is. -/
def ofLeaf (pass : Pass) (key : String) (content : Draft) : Except ReadError Node :=
  if key = "named" then do
    let name ← content.asText
    return named name
  else
    match ofName? key with
    | some node => do
      content.asUnit pass
      return node
    | none => .error .misshapen

mutual

/-- Decodes a node. -/
def ofDraft (pass : Pass) : Draft → Except ReadError Node
  | .text name =>
    match ofName? name with
    | some node => .ok node
    | none => .error .misshapen
  | .object ((key, content) :: more) closed =>
    if pass.refuses more then .error .misshapen
    else do
      let node ← (match Form.ofKey? key with
        | some form => (ofBody pass content).map fun body => applied form body.1 body.2
        | none => ofLeaf pass key content)
      finish more closed
      node.checked
  | .object [] closed => .error (.short closed)
  | d => .error d.misfit

/-- Decodes the base and the parameters of a node. -/
def ofBody (pass : Pass) : Draft → Except ReadError (String × List Node)
  | .object members closed => ofMembers pass none none members closed
  | .array (base :: params :: more) closed => do
    let base ← base.asText
    let params ← ofParams pass params
    finish more closed
    return (base, params)
  | .array [base] closed => do
    let _ ← base.asText
    .error (.short closed)
  | .array [] closed => .error (.short closed)
  | d => .error d.misfit

/-- Decodes the base and the parameters of a node, found among members. Either may be there
already. -/
def ofMembers (pass : Pass) (base : Option String) (params : Option (List Node)) :
    List (String × Draft) → Bool → Except ReadError (String × List Node)
  | [], closed =>
    if closed then
      match base, params with
      | some base, some params => .ok (base, params)
      | _, _ => .error .misshapen
    else .error .malformed
  | (key, content) :: more, closed =>
    if key = "base" then
      if base.isSome then .error .misshapen
      else do
        let base ← content.asText
        ofMembers pass (some base) params more closed
    else if key = "params" then
      if params.isSome then .error .misshapen
      else do
        let params ← ofParams pass content
        ofMembers pass base (some params) more closed
    else ofMembers pass base params more closed

/-- Decodes an array of parameters. -/
def ofParams (pass : Pass) : Draft → Except ReadError (List Node)
  | .array items closed => do
    let nodes ← ofItems pass items
    finish ([] : List Draft) closed
    return nodes
  | d => .error d.misfit

/-- Decodes parameters one after the other. -/
def ofItems (pass : Pass) : List Draft → Except ReadError (List Node)
  | [] => .ok []
  | item :: items => do
    let node ← ofDraft pass item
    let nodes ← ofItems pass items
    return node :: nodes

end

/-- Reads a text as a node. -/
def read (source : String) : Except ReadError Node :=
  decodeText (ofDraft .streamed) source

end Node

end TypeExpr
