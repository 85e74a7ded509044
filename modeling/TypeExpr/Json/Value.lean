import TypeExpr.Json.Token

/-!
# JSON values and their compact text

A value is what a JSON text says, less its blanks and its choice of escapes. The members
of an object keep their order, and a key may come twice: whether that is a mistake is for
the reader of the object to say.

The compact text of a value is the row of its tokens written without blanks. The tokens are
the second side of reading: what is read from a text depends on its tokens alone.
-/

namespace TypeExpr

/-- A JSON value. -/
inductive Json where
  | null
  | bool (value : Bool)
  | numeral (value : Json.Numeral)
  | text (value : String)
  | array (items : List Json)
  | object (members : List (String × Json))

namespace Json

mutual

/-- The tokens of a value. -/
def tokens : Json → List Token
  | null => [.null]
  | bool b => [.bool b]
  | numeral n => [.numeral n]
  | text s => [.text s]
  | array [] => [.openArray, .closeArray]
  | array (item :: items) => .openArray :: (item.tokens ++ itemTokens items)
  | object [] => [.openObject, .closeObject]
  | object ((key, value) :: members) =>
    .openObject :: .text key :: .colon :: (value.tokens ++ memberTokens members)

/-- The tokens from behind an item of an array to the end of the array. -/
def itemTokens : List Json → List Token
  | [] => [.closeArray]
  | item :: items => .comma :: (item.tokens ++ itemTokens items)

/-- The tokens from behind a member of an object to the end of the object. -/
def memberTokens : List (String × Json) → List Token
  | [] => [.closeObject]
  | (key, value) :: members =>
    .comma :: .text key :: .colon :: (value.tokens ++ memberTokens members)

end

/-- The compact text of a value: its tokens and nothing between them. -/
def compact (value : Json) : String :=
  String.ofList (value.tokens.flatMap Token.write)

end Json

end TypeExpr
