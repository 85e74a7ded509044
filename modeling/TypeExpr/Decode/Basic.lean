import TypeExpr.Json.Draft

/-!
# Decoding drafts

A value is decoded from the draft of its text by walking over it from left to right and
stopping at the first fault. There are three kinds of fault: the text stops being JSON, a
value does not have the shape that is asked for, or the value breaks the one rule that type
expressions have beyond their shape, that a callable has a return type.

Decoding comes in two passes. In a *streamed* pass the decoder runs over the text itself, so
what it meets first counts first. In a *stored* pass the text of the whole value has been
read before, and the decoder can look ahead. The two differ in three points only.

| | streamed | stored |
|---|---|---|
| a choice with a second key | its first key is decoded before | refused at once |
| an alternative without content | `null` | `null` or the empty object |
| what nobody asks for | passed over (`Json.Draft.skimmer`) | read like the rest (`Json.Draft.reader`) |

The last point is the only one about the text. What is stored has been read, whether or not
somebody asks for it, and so a numeral out of range spoils it anywhere. In a streamed pass a
member that no field is known for is passed over, and nobody looks at its numerals, at the
surrogates in its strings, or at how deep its brackets are nested.
-/

namespace TypeExpr

/-- Why a text could not be read. -/
inductive ReadError where
  /-- The text is no JSON. -/
  | malformed
  /-- A value has the wrong shape. -/
  | misshapen
  /-- A callable has no parameters, hence no return type. -/
  | noReturnType (base : String)
  deriving DecidableEq

/-- The wording of a fault, if it has its own. What is wrong with a text as JSON, or with
the shape of a value, is left to general words. -/
def ReadError.wording? : ReadError → Option String
  | noReturnType base => some ("callable type " ++ base ++ " has no return type")
  | _ => none

/-- The text shown for a fault. What has no wording of its own is worded by the library that
reads JSON, with its own account of the place, and `<json>` stands for that. -/
def ReadError.text (error : ReadError) : String :=
  error.wording?.getD "<json>"

/-- How the text of a value reaches its decoder. -/
inductive Pass where
  /-- While the text is being read. -/
  | streamed
  /-- After the text has been read. -/
  | stored
  deriving DecidableEq

open Json (Draft Document)

/-! ### Faults of a draft -/

/-- The fault of a draft that is not of the kind asked for. A container is refused at its
opening bracket, whatever it holds. -/
def Json.Draft.misfit : Draft → ReadError
  | .broken => .malformed
  | _ => .misshapen

/-- The fault of a container that ends where more was asked for. -/
def ReadError.short (closed : Bool) : ReadError :=
  if closed then misshapen else malformed

/-- A container must end where nothing more is asked for. -/
def finish {α : Type} (more : List α) (closed : Bool) : Except ReadError Unit :=
  if !more.isEmpty then .error .misshapen
  else if closed then .ok ()
  else .error .malformed

/-! ### Plain values -/

/-- A string. -/
def Json.Draft.asText : Draft → Except ReadError String
  | .text s => .ok s
  | d => .error d.misfit

/-- The content of an alternative that has none. -/
def Json.Draft.asUnit (pass : Pass) : Draft → Except ReadError Unit
  | .null => .ok ()
  | .object [] true => if pass = .stored then .ok () else .error .misshapen
  | d => .error d.misfit

section Combinators

variable {α β : Type}

/-- An array of values of one kind. -/
def Json.Draft.asList (decode : Draft → Except ReadError α) :
    Draft → Except ReadError (List α)
  | .array items closed => do
    let values ← items.mapM decode
    finish ([] : List Draft) closed
    return values
  | d => .error d.misfit

/-- Whether a choice is refused before its first key is decoded, because there are more. -/
def Pass.refuses (pass : Pass) (more : List (String × Draft)) : Bool :=
  pass = .stored && !more.isEmpty

/-- A choice between alternatives with content: an object with one key. -/
def Json.Draft.asChoice (pass : Pass) (decode : String → Draft → Except ReadError α) :
    Draft → Except ReadError α
  | .object ((key, content) :: more) closed =>
    if pass.refuses more then .error .misshapen
    else do
      let value ← decode key content
      finish more closed
      return value
  | .object [] closed => .error (.short closed)
  | d => .error d.misfit

/-! ### Fields

A record is given by its fields, each under its key or all in order. Under keys they may
come in any order, and keys that the record does not know are passed over. -/

/-- The fields of a stored record. -/
inductive Fields where
  /-- Each field under its key. -/
  | keyed (members : List (String × Draft))
  /-- The fields in their fixed order. -/
  | ordered (items : List Draft)

/-- The one field of a record, found among members. It may be there already. -/
def decodeField (key : String) (decode : Draft → Except ReadError α) :
    Option α → List (String × Draft) → Except ReadError α
  | some value, [] => .ok value
  | none, [] => .error .misshapen
  | found, (k, content) :: more =>
    if k = key then
      if found.isSome then .error .misshapen
      else do
        let value ← decode content
        decodeField key decode (some value) more
    else decodeField key decode found more

/-- The two fields of a record, found among members. Either may be there already. -/
def decodeFields (key₁ : String) (decode₁ : Draft → Except ReadError α)
    (key₂ : String) (decode₂ : Draft → Except ReadError β) :
    Option α → Option β → List (String × Draft) → Except ReadError (α × β)
  | some value₁, some value₂, [] => .ok (value₁, value₂)
  | _, _, [] => .error .misshapen
  | found₁, found₂, (k, content) :: more =>
    if k = key₁ then
      if found₁.isSome then .error .misshapen
      else do
        let value ← decode₁ content
        decodeFields key₁ decode₁ key₂ decode₂ (some value) found₂ more
    else if k = key₂ then
      if found₂.isSome then .error .misshapen
      else do
        let value ← decode₂ content
        decodeFields key₁ decode₁ key₂ decode₂ found₁ (some value) more
    else decodeFields key₁ decode₁ key₂ decode₂ found₁ found₂ more

namespace Fields

/-- Decodes a record of one field. -/
def one (key : String) (decode : Draft → Except ReadError α) : Fields → Except ReadError α
  | keyed members => decodeField key decode none members
  | ordered [] => .error .misshapen
  | ordered (item :: more) => do
    let value ← decode item
    finish more true
    return value

/-- Decodes a record of two fields. -/
def two (key₁ : String) (decode₁ : Draft → Except ReadError α)
    (key₂ : String) (decode₂ : Draft → Except ReadError β) :
    Fields → Except ReadError (α × β)
  | keyed members => decodeFields key₁ decode₁ key₂ decode₂ none none members
  | ordered [] => .error .misshapen
  | ordered [item] => do
    let _ ← decode₁ item
    .error .misshapen
  | ordered (item₁ :: item₂ :: more) => do
    let value₁ ← decode₁ item₁
    let value₂ ← decode₂ item₂
    finish more true
    return (value₁, value₂)

end Fields

/-! ### Whole texts -/

/-- What a text is to its decoder. -/
def Pass.document : Pass → String → Document
  | streamed => Document.skim
  | stored => Document.read

/-- Decodes what was read of a text: its draft is decoded, and then nothing may follow it. -/
def decodeDocument (decode : Draft → Except ReadError α) (document : Document) :
    Except ReadError α := do
  let value ← decode document.draft
  if document.ended then return value else .error .malformed

/-- Reads a text as one value in a streamed pass. -/
def decodeText (decode : Draft → Except ReadError α) (source : String) : Except ReadError α :=
  decodeDocument decode (Pass.streamed.document source)

/-- Reads a text as one value in a stored pass. -/
def decodeStored (decode : Draft → Except ReadError α) (source : String) :
    Except ReadError α :=
  decodeDocument decode (Pass.stored.document source)

end Combinators

end TypeExpr
