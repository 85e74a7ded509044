import TypeExpr.Json.Token

/-!
# Passing over a value

A value that nobody wants can be passed over. What it says is not looked at, only that it has the
shape of a value: that brackets close in the order in which they opened, that commas and colons
stand in their places, that keys are strings. A numeral may be out of range, a string may hold
half of a surrogate pair, and brackets may be nested to any depth.

The depth has no limit because the brackets that are open are kept in a list, the innermost one
in front, in the place of one reader inside another.
-/

namespace TypeExpr.Json

/-- A bracket that has been opened. -/
inductive Bracket where
  | array
  | object

namespace Token

/-- Whether a token has the shape of a value by itself. -/
def isScalar : Token → Bool
  | null | bool _ | numeral _ | outOfRange | text _ | unpaired => true
  | _ => false

/-- Whether a token has the shape of a string. -/
def isString : Token → Bool
  | text _ | unpaired => true
  | _ => false

mutual

/-- Passes over a value inside of these brackets, and then on to the end of them all. -/
def skipValue (outer : List Bracket) : List Token → Option (List Token)
  | openArray :: closeArray :: rest | openObject :: closeObject :: rest => skipBehind outer rest
  | openArray :: rest => skipValue (.array :: outer) rest
  | openObject :: rest => skipMember outer rest
  | t :: rest => if t.isScalar then skipBehind outer rest else none
  | [] => none

/-- Passes over a member of an object inside of these brackets, and on to the end of them all. -/
def skipMember (outer : List Bracket) : List Token → Option (List Token)
  | t :: colon :: rest => if t.isString then skipValue (.object :: outer) rest else none
  | _ => none

/-- Goes on behind a value inside of these brackets, to the end of them all. -/
def skipBehind : List Bracket → List Token → Option (List Token)
  | [], rest => some rest
  | .array :: outer, closeArray :: rest | .object :: outer, closeObject :: rest =>
    skipBehind outer rest
  | .array :: outer, comma :: rest => skipValue (.array :: outer) rest
  | .object :: outer, comma :: rest => skipMember outer rest
  | _ :: _, _ => none

end

/-- **Passes over a value**, and gives what follows it. -/
def skip (ts : List Token) : Option (List Token) :=
  skipValue [] ts

/-- Each step takes a token, and passing over a value takes one at least. -/
theorem length_of_skip {rest : List Token} :
    (∀ outer ts, skipValue outer ts = some rest → rest.length < ts.length) ∧
    (∀ outer ts, skipMember outer ts = some rest → rest.length < ts.length) ∧
    ∀ outer ts, skipBehind outer ts = some rest → rest.length ≤ ts.length := by
  apply skipValue.mutual_induct
  all_goals
    intros
    simp_all [skipValue, skipMember, skipBehind]
    try omega

/-- **Behind a value that is passed over there is less to read.** -/
theorem length_lt_of_skip {ts rest : List Token} (h : skip ts = some rest) :
    rest.length < ts.length :=
  length_of_skip.1 [] ts h

end Token

end TypeExpr.Json
