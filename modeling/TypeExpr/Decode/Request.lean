import TypeExpr.Decode.Parameter
import TypeExpr.Entry

/-!
# Decoding requests and entries

The operation of a request decides which fields it has, and it may stand behind them. So the
members of a request are read as plain JSON first, then the operation is looked up, and then
the fields are decoded, in the order in which they stand. Fields of other operations are
passed over like any unknown key.

In an entry the line number is an exception. It is looked at as soon as it is met, and a bad
one, or a second one, is a fault at that place of the text, before anything that the other
members have wrong with them. If the text breaks off inside the entry, nothing but the line
number has been looked at.
-/

namespace TypeExpr

open Json (Draft)

/-! ### Requests -/

/-- Decodes the fields of a request for an operation. -/
def Op.decode (op : Op) (fields : Fields) : Except ReadError Request :=
  let value := fields.one "value" (Node.ofDraft .stored)
  match op with
  | list => (fields.one "name" Draft.asText).map .list
  | typeOf => value.map .typeOf
  | tuple =>
    (fields.two "base" Draft.asText "params" (Draft.asList (Node.ofDraft .stored))).map
      fun (base, params) => .tuple base params
  | callable =>
    (fields.two "base" Draft.asText "params" (Draft.asList (Parameter.ofDraft .stored))).map
      fun (base, params) => .callable base params
  | isAny => value.map .isAny
  | isNone => value.map .isNone
  | isString => value.map .isString

/-- How an operation may be given. -/
inductive OpStyle where
  /-- By its name. -/
  | byName
  /-- By its name or its index. -/
  | byNameOrIndex
  deriving DecidableEq

/-- Decodes an operation. -/
def Op.ofDraft (style : OpStyle) : Draft → Except ReadError Op
  | .text name =>
    match ofName? name with
    | some op => .ok op
    | none => .error .misshapen
  | .numeral n =>
    match style, n.natural?.bind ofIndex? with
    | .byNameOrIndex, some op => .ok op
    | _, _ => .error .misshapen
  | d => .error d.misfit

namespace Request

/-- Decodes a request from its members, of which exactly one must give the operation. -/
def ofMembers (style : OpStyle) (members : List (String × Draft)) : Except ReadError Request :=
  match members.filter fun member => member.1 = "op" with
  | [(_, content)] => do
    let op ← Op.ofDraft style content
    op.decode (.keyed (members.filter fun member => member.1 ≠ "op"))
  | _ => .error .misshapen

/-- Decodes a request that stands alone. It may also be given as an array of the name of the
operation and its fields. -/
def ofDraft (draft : Draft) : Except ReadError Request :=
  if draft.isWhole then
    match draft with
    | .object members _ => ofMembers .byName members
    | .array (.text name :: items) _ => do
      let op ← Op.ofDraft .byName (.text name)
      op.decode (.ordered items)
    | _ => .error .misshapen
  else .error .malformed

/-- Reads a text as a request. -/
def read (source : String) : Except ReadError Request :=
  decodeStored ofDraft source

end Request

/-! ### Entries -/

/-- Decodes a line number: a numeral in plain digits that fits, or `null` for none. -/
def lineOfDraft : Draft → Except ReadError (Option Nat)
  | .null => .ok none
  | .numeral n =>
    match n.natural? with
    | some line => if line < lineLimit then .ok (some line) else .error .misshapen
    | none => .error .misshapen
  | d => .error d.misfit

namespace Entry

/-- Walks over the members of an entry and takes out the line number. It may have been found
already. -/
def takeLine : Option (Option Nat) → List (String × Draft) →
    Except ReadError (Option Nat × List (String × Draft))
  | found, [] => .ok (found.join, [])
  | found, (key, content) :: more =>
    if key = "line" then
      if found.isSome then .error .misshapen
      else do
        let line ← lineOfDraft content
        takeLine (some line) more
    else if content.isWhole then do
      let (line, others) ← takeLine found more
      return (line, (key, content) :: others)
    else .error .malformed

/-- Decodes an entry. -/
def ofDraft : Draft → Except ReadError Entry
  | .object members closed => do
    let (line, others) ← takeLine none members
    finish ([] : List Draft) closed
    let request ← Request.ofMembers .byNameOrIndex others
    return ⟨request, line⟩
  | d => .error d.misfit

/-- Reads a text as an entry. -/
def read (source : String) : Except ReadError Entry :=
  decodeStored ofDraft source

end Entry

end TypeExpr
