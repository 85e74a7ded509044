import TypeExpr.Json.Skip
import TypeExpr.Json.Value

/-!
# Drafts: a text read as far as it is JSON

Whoever reads a JSON text from front to back and stops at the first fault needs to know
more of a broken text than that it is broken. A wrong shape near the front comes before a
missing bracket near the end, so the shape of what came before the break still counts.

A draft is the value of a text as far as it can be told. A container whose text breaks off
is kept with what had been read of it and marked as not closed; where a value was due and
none could be read, the draft says `broken`, and if that happens behind the key of a member,
the key is kept. Walking over a draft from left to right, one meets the faults of the text
in the order of the text, those of its shape and those of its syntax alike.

Brackets may be nested only so far. A reader is made for the depth that is left, and to one
with no depth left a bracket is no value.

There are two readers, since not everybody who asks for a draft wants all of it. The strict one
stops where the text breaks. The other one, the skimmer, first looks whether what broke can be
passed over, and if so, it goes on behind it. A part of its draft may thus be broken with more of
the text behind it, and what becomes of that is for the decoder to say: the text was read in vain
if the decoder wants the part, and if it does not, nothing is wrong.
-/

namespace TypeExpr.Json

/-- The value of a text as far as it can be told. -/
inductive Draft where
  | null
  | bool (value : Bool)
  | numeral (value : Numeral)
  | text (value : String)
  /-- An array, and whether its text went on to the closing bracket. -/
  | array (items : List Draft) (closed : Bool)
  /-- An object, and whether its text went on to the closing bracket. -/
  | object (members : List (String × Draft)) (closed : Bool)
  /-- A value was due, but the text is no JSON here. -/
  | broken

/-- What reading a row of tokens from the front found, and what follows it, unless the
text broke before the end of it was reached. -/
structure Reading (α : Type) where
  /-- What was found, as far as it could be told. -/
  found : α
  /-- What follows, if the end was reached. -/
  rest : Option (List Token)

namespace Draft

/-- A way of reading values from the front of a row of tokens. A value takes at least one
token, so there is always less to read behind it. -/
structure Reader where
  /-- Reads a value. -/
  read : List Token → Reading Draft
  /-- Behind a value there is less to read. -/
  length_lt : ∀ ts rest : List Token, (read ts).rest = some rest → rest.length < ts.length

section Containers

variable (value : Reader)

/-- The items of an array from its opening bracket or a comma on. -/
def items (ts : List Token) : Reading (List Draft) :=
  match _hread : value.read ts with
  | ⟨item, some (.comma :: rest)⟩ =>
    let more := items rest
    ⟨item :: more.found, more.rest⟩
  | ⟨item, some (.closeArray :: rest)⟩ => ⟨[item], some rest⟩
  | ⟨item, _⟩ => ⟨[item], none⟩
termination_by ts.length
decreasing_by exact Nat.lt_of_succ_lt (value.length_lt _ (.comma :: rest) (by rw [_hread]))

/-- The members of an object from its opening bracket or a comma on. -/
def members (ts : List Token) : Reading (List (String × Draft)) :=
  match ts with
  | .text key :: .colon :: us =>
    match _hread : value.read us with
    | ⟨item, some (.comma :: rest)⟩ =>
      let more := members rest
      ⟨(key, item) :: more.found, more.rest⟩
    | ⟨item, some (.closeObject :: rest)⟩ => ⟨[(key, item)], some rest⟩
    | ⟨item, _⟩ => ⟨[(key, item)], none⟩
  | .text key :: _ => ⟨[(key, broken)], none⟩
  | _ => ⟨[], none⟩
termination_by ts.length
decreasing_by
  have := value.length_lt _ (.comma :: rest) (by rw [_hread])
  simp only [List.length_cons] at this ⊢
  omega

end Containers

/-! The cases of `items` and `members`, one by one. -/

section Cases

variable {value : Reader} {ts us rest : List Token} {item : Draft} {key : String}

theorem items_of_comma (h : value.read ts = ⟨item, some (.comma :: rest)⟩) :
    items value ts = ⟨item :: (items value rest).found, (items value rest).rest⟩ := by
  rw [items]
  split <;> simp_all

theorem items_of_close (h : value.read ts = ⟨item, some (.closeArray :: rest)⟩) :
    items value ts = ⟨[item], some rest⟩ := by
  rw [items]
  split <;> simp_all

theorem members_of_comma (h : value.read us = ⟨item, some (.comma :: rest)⟩) :
    members value (.text key :: .colon :: us) =
      ⟨(key, item) :: (members value rest).found, (members value rest).rest⟩ := by
  rw [members]
  split <;> simp_all

theorem members_of_close (h : value.read us = ⟨item, some (.closeObject :: rest)⟩) :
    members value (.text key :: .colon :: us) = ⟨[(key, item)], some rest⟩ := by
  rw [members]
  split <;> simp_all

theorem length_lt_of_items (h : (items value ts).rest = some rest) :
    rest.length < ts.length := by
  fun_induction items value ts with
  | case1 ts item us hread more ih =>
    have hus := value.length_lt ts (.comma :: us) (by rw [hread])
    exact Nat.lt_trans (ih h) (Nat.lt_of_succ_lt hus)
  | case2 ts item us hread =>
    obtain rfl : us = rest := by simpa using h
    exact Nat.lt_of_succ_lt (value.length_lt ts (.closeArray :: us) (by rw [hread]))
  | case3 => exact absurd h (by simp)

theorem length_lt_of_members (h : (members value ts).rest = some rest) :
    rest.length < ts.length := by
  fun_induction members value ts with
  | case1 key us item vs hread more ih =>
    have hvs := value.length_lt us (.comma :: vs) (by rw [hread])
    have hrest := ih h
    simp only [List.length_cons] at hvs ⊢
    omega
  | case2 key us item vs hread =>
    obtain rfl : vs = rest := by simpa using h
    have hvs := value.length_lt us (.closeObject :: vs) (by rw [hread])
    simp only [List.length_cons] at hvs ⊢
    omega
  | case3 | case4 | case5 => exact absurd h (by simp)

end Cases

/-! ### Values -/

/-- Reads a value without brackets. -/
def leaf : List Token → Reading Draft
  | .null :: rest => ⟨null, some rest⟩
  | .bool b :: rest => ⟨bool b, some rest⟩
  | .numeral n :: rest => ⟨numeral n, some rest⟩
  | .text s :: rest => ⟨text s, some rest⟩
  | _ => ⟨broken, none⟩

/-- Reads a value whose items or members are read in the given way. -/
def nested (value : Reader) : List Token → Reading Draft
  | .openArray :: .closeArray :: rest => ⟨array [] true, some rest⟩
  | .openArray :: rest =>
    let got := items value rest
    ⟨array got.found got.rest.isSome, got.rest⟩
  | .openObject :: .closeObject :: rest => ⟨object [] true, some rest⟩
  | .openObject :: rest =>
    let got := members value rest
    ⟨object got.found got.rest.isSome, got.rest⟩
  | ts => leaf ts

theorem length_lt_of_leaf {ts rest : List Token} (h : (leaf ts).rest = some rest) :
    rest.length < ts.length := by
  unfold leaf at h
  split at h <;> simp_all

theorem length_lt_of_nested {value : Reader} {ts rest : List Token}
    (h : (nested value ts).rest = some rest) : rest.length < ts.length := by
  unfold nested at h
  split at h
  case h_2 => exact Nat.lt_succ_of_lt (length_lt_of_items h)
  case h_4 => exact Nat.lt_succ_of_lt (length_lt_of_members h)
  case h_5 => exact length_lt_of_leaf h
  all_goals
    obtain rfl := Option.some.inj h
    exact Nat.lt_succ_of_lt (Nat.lt_succ_self _)

/-- **Reads a value, with so many levels of brackets left to open.** -/
def reader : Nat → Reader
  | 0 => ⟨leaf, fun _ _ => length_lt_of_leaf⟩
  | depth + 1 => ⟨nested (reader depth), fun _ _ => length_lt_of_nested⟩

/-- Goes on behind what a way of reading values cannot read to the end, if it can be passed
over. What was found of it stays. -/
def orSkip (read : List Token → Reading Draft) (ts : List Token) : Reading Draft :=
  let got := read ts
  ⟨got.found, got.rest.or (Token.skip ts)⟩

theorem length_lt_of_orSkip {read : List Token → Reading Draft} {ts rest : List Token}
    (hread : (read ts).rest = some rest → rest.length < ts.length)
    (h : (orSkip read ts).rest = some rest) : rest.length < ts.length := by
  rcases Option.or_eq_some_iff.mp h with h | ⟨-, h⟩
  · exact hread h
  · exact Token.length_lt_of_skip h

/-- **Reads a value, with so many levels of brackets left to open, and passes over what cannot
be read.** -/
def skimmer : Nat → Reader
  | 0 => ⟨orSkip leaf, fun _ _ => length_lt_of_orSkip length_lt_of_leaf⟩
  | depth + 1 =>
    ⟨orSkip (nested (skimmer depth)), fun _ _ => length_lt_of_orSkip length_lt_of_nested⟩

/-! ### Finished drafts -/

mutual

/-- Whether the text of a draft was JSON to its end. -/
def isWhole : Draft → Bool
  | array items closed => closed && areWhole items
  | object members closed => closed && membersWhole members
  | broken => false
  | _ => true

/-- Whether the text of each item was JSON to its end. -/
def areWhole : List Draft → Bool
  | [] => true
  | item :: items => item.isWhole && areWhole items

/-- Whether the text of each member was JSON to its end. -/
def membersWhole : List (String × Draft) → Bool
  | [] => true
  | (_, value) :: members => value.isWhole && membersWhole members

end

end Draft

mutual

/-- The draft of a text that says this value. -/
def draft : Json → Draft
  | null => .null
  | bool b => .bool b
  | numeral n => .numeral n
  | text s => .text s
  | array items => .array (drafts items) true
  | object members => .object (memberDrafts members) true

/-- The drafts of the items of an array. -/
def drafts : List Json → List Draft
  | [] => []
  | item :: items => item.draft :: drafts items

/-- The drafts of the members of an object. -/
def memberDrafts : List (String × Json) → List (String × Draft)
  | [] => []
  | (key, value) :: members => (key, value.draft) :: memberDrafts members

end

mutual

/-- The draft of a value is finished. -/
theorem isWhole_draft : ∀ value : Json, value.draft.isWhole = true
  | null | bool _ | numeral _ | text _ => rfl
  | array items => by rw [draft, Draft.isWhole, areWhole_drafts items, Bool.and_self]
  | object members => by rw [draft, Draft.isWhole, membersWhole_drafts members, Bool.and_self]

theorem areWhole_drafts : ∀ items : List Json, Draft.areWhole (drafts items) = true
  | [] => rfl
  | item :: items => by
    rw [drafts, Draft.areWhole, isWhole_draft item, areWhole_drafts items, Bool.and_self]

theorem membersWhole_drafts :
    ∀ members : List (String × Json), Draft.membersWhole (memberDrafts members) = true
  | [] => rfl
  | (_, value) :: members => by
    rw [memberDrafts, Draft.membersWhole, isWhole_draft value, membersWhole_drafts members,
      Bool.and_self]

end

/-! ### Documents -/

/-- How deep brackets may be nested in a text. -/
def nestingLimit : Nat := 127

/-- A text that should be one JSON value: its draft, and whether nothing but blanks
follows it. -/
structure Document where
  draft : Draft
  ended : Bool

/-- What a way of reading values makes of a whole text. -/
def Document.of (value : Draft.Reader) (source : String) : Document :=
  let got := value.read (Token.lex source.toList)
  ⟨got.found, got.rest == some []⟩

/-- Reads a whole text. -/
def Document.read (source : String) : Document :=
  .of (Draft.reader nestingLimit) source

/-- Reads a whole text, and passes over what cannot be read. -/
def Document.skim (source : String) : Document :=
  .of (Draft.skimmer nestingLimit) source

end TypeExpr.Json
