import TypeExpr.Decode.Node

/-!
# Decoding parameters

An argument item is a type or an ellipsis, a parameter an argument list or a type. Both are
choices, and only the ellipsis has no content, so only the ellipsis may be written as its
name alone.
-/

namespace TypeExpr

open Json (Draft)

namespace Argument

/-- Decodes the content that stands under a key. -/
def ofContent (pass : Pass) (key : String) (content : Draft) : Except ReadError Argument :=
  if key = "type" then do
    let node ← Node.ofDraft pass content
    return type node
  else if key = "ellipsis" then do
    content.asUnit pass
    return ellipsis
  else .error .misshapen

/-- Decodes an argument item. -/
def ofDraft (pass : Pass) : Draft → Except ReadError Argument
  | .text "ellipsis" => .ok ellipsis
  | d => d.asChoice pass (ofContent pass)

/-- Reads a text as an argument item. -/
def read (source : String) : Except ReadError Argument :=
  decodeText (ofDraft .streamed) source

end Argument

namespace Parameter

/-- Decodes the content that stands under a key. -/
def ofContent (pass : Pass) (key : String) (content : Draft) : Except ReadError Parameter :=
  if key = "args" then do
    let items ← content.asList (Argument.ofDraft pass)
    return args items
  else if key = "type" then do
    let node ← Node.ofDraft pass content
    return type node
  else .error .misshapen

/-- Decodes a parameter. -/
def ofDraft (pass : Pass) : Draft → Except ReadError Parameter :=
  Draft.asChoice pass (ofContent pass)

/-- Reads a text as a parameter. -/
def read (source : String) : Except ReadError Parameter :=
  decodeText (ofDraft .streamed) source

end Parameter

end TypeExpr
