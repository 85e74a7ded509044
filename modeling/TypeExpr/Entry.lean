import TypeExpr.Request

/-!
# Entries

A request file is a list of entries. An entry is a request, and the number of the source
line that it came from, if that is known. The number is used for nothing but the location of
an error.

The JSON form of a request is an object that names the operation first and then gives its
fields; the entry adds the line, as the last member and always.
-/

namespace TypeExpr

/-- An entry of a request file. -/
structure Entry where
  request : Request
  line : Option Nat
  deriving DecidableEq

/-- Line numbers are kept in 64 bits. -/
def lineLimit : Nat := Nat.pow 2 64

namespace Request

/-- The fields of a request, in order. -/
def fields : Request → List (String × Json)
  | list name => [("name", .text name)]
  | typeOf value | isAny value | isNone value | isString value => [("value", value.toJson)]
  | tuple base params => [("base", .text base), ("params", .array (params.map Node.toJson))]
  | callable base params =>
    [("base", .text base), ("params", .array (params.map Parameter.toJson))]

/-- The members of a request's JSON form. -/
def members (request : Request) : List (String × Json) :=
  ("op", .text request.op.name) :: request.fields

/-- The JSON form of a request. -/
def toJson (request : Request) : Json :=
  .object request.members

end Request

/-- The JSON form of a line number. -/
def lineJson : Option Nat → Json
  | some n => .numeral (.ofNat n)
  | none => .null

/-- The JSON form of an entry. -/
def Entry.toJson (entry : Entry) : Json :=
  .object (entry.request.members ++ [("line", lineJson entry.line)])

end TypeExpr
