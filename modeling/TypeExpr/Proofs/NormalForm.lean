import TypeExpr.Proofs.Decode.Value
import TypeExpr.Proofs.Entry
import TypeExpr.Proofs.Soundness

/-!
# Written back

A text that is read can be written back: the value that it was read as has one JSON form, and that
has one compact text. Spaces and escapes, the order of members and members that nobody asked for,
bodies given as arrays, operations given by their index and contents given where there is nothing
to hold are all gone from it, since the value keeps none of them. What has to be shown is that the
reader still takes what is left.

| what could be in the way | why it is not |
|---|---|
| a callable without parameters | no spelling has one (`Node.Spells.sound`) |
| a line number that does not fit | the line of a spelled entry fits (`Entry.Spells.line_lt`) |
| brackets too deep for the reader | the form is no deeper than any spelling (`Format.nesting_toJson_le`) |

The last of these is about every spelling there is. The forms are as deep as their values, and a
spelling has to hold all parts of its value, each at least as deep inside as the form has it: an
array in the place of an object is one pair of brackets for another.

There are six kinds of text that are read by themselves, and they go the same way, so they are
taken together (`Format`).
-/

namespace TypeExpr

open Json (Draft Document)

/-! ### The forms are no deeper than the spellings -/

/-- An array of forms is no deeper than the array that its values were read from. -/
theorem nesting_map_le {α : Type} {R : Draft → α → Prop} {form : α → Json} {items : List Draft}
    {closed : Bool} {values : List α} (h : List.Forall₂ R items values)
    (hle : ∀ item value, R item value → (form value).nesting ≤ item.nesting) :
    (Json.array (values.map form)).nesting ≤ (Draft.array items closed).nesting := by
  refine Nat.succ_le_succ (Json.nestingOfItems_le_iff.mpr ?_)
  refine List.forall_mem_map.mpr fun value hvalue => ?_
  obtain ⟨item, hitem, hR⟩ := exists_of_mem_forall₂ h hvalue
  exact (hle item value hR).trans (Draft.nesting_le_of_mem_items hitem)

/-- A choice is no deeper than the one it was read from, if its content is not. -/
theorem nesting_choice_le {key : String} {form : Json} {content : Draft}
    (h : form.nesting ≤ content.nesting) :
    (Json.object [(key, form)]).nesting ≤ (Draft.object [(key, content)] true).nesting := by
  simp only [Json.nesting, Json.nestingOfMembers, Draft.nesting, Draft.nestingOfMembers]
  omega

theorem Node.Spells.nesting_toJson_le {pass : Pass} {d : Draft} {node : Node}
    (h : node.Spells pass d) : node.toJson.nesting ≤ d.nesting :=
  node.nesting_toJson.trans_le h.nesting_le

theorem Argument.Spells.nesting_toJson_le {pass : Pass} {d : Draft} {item : Argument}
    (h : Argument.Spells pass d item) : item.toJson.nesting ≤ d.nesting := by
  cases h with
  | name | unit => exact Nat.zero_le _
  | type hnode => exact nesting_choice_le hnode.nesting_toJson_le

theorem Parameter.Spells.nesting_toJson_le {pass : Pass} {d : Draft} {param : Parameter}
    (h : Parameter.Spells pass d param) : param.toJson.nesting ≤ d.nesting := by
  cases h with
  | args hitems =>
    exact nesting_choice_le (nesting_map_le hitems fun _ _ hitem => hitem.nesting_toJson_le)
  | type hnode => exact nesting_choice_le hnode.nesting_toJson_le

namespace Fields

/-- How many levels of brackets the deepest field has. -/
def nesting : Fields → Nat
  | keyed members => Draft.nestingOfMembers members
  | ordered items => Draft.nestingOfItems items

variable {fields : Fields} {key key₁ key₂ : String} {content content₁ content₂ : Draft}

theorem Has.nesting_le (h : fields.Has key content) : content.nesting ≤ fields.nesting := by
  cases fields with
  | keyed members => exact Draft.nesting_le_of_mem_members (Sole.mem h)
  | ordered items =>
    obtain rfl : items = [content] := h
    exact Draft.nesting_le_of_mem_items (.head _)

/-- Of two fields the second is the one with brackets. -/
theorem HasBoth.nesting_le (h : fields.HasBoth key₁ content₁ key₂ content₂) :
    content₂.nesting ≤ fields.nesting := by
  cases fields with
  | keyed members => exact Draft.nesting_le_of_mem_members (Sole.mem h.2)
  | ordered items =>
    obtain rfl : items = [content₁, content₂] := h
    exact Draft.nesting_le_of_mem_items (.tail _ (.head _))

end Fields

/-- **The members of a request are no deeper than the fields** that it was read from. -/
theorem Request.Spells.nestingOfMembers_le {fields : Fields} {request : Request}
    (h : request.Spells fields) : Json.nestingOfMembers request.members ≤ fields.nesting := by
  cases h with
  | list => exact Nat.zero_le _
  | typeOf hvalue hnode | isAny hvalue hnode | isNone hvalue hnode | isString hvalue hnode =>
    have hle := hnode.nesting_toJson_le.trans hvalue.nesting_le
    simpa [members, Request.fields, Json.nestingOfMembers, Json.nesting] using hle
  | tuple hfields hparams | callable hfields hparams =>
    have hle := (nesting_map_le hparams fun _ _ hparam => hparam.nesting_toJson_le).trans
      hfields.nesting_le
    simpa [members, Request.fields, Json.nestingOfMembers, Json.nesting] using hle

theorem Request.StandsIn.nesting_toJson_le {d : Draft} {request : Request}
    (h : StandsIn d request) : request.toJson.nesting ≤ d.nesting := by
  cases h with
  | keyed _ hspells _ => exact Nat.succ_le_succ hspells.nestingOfMembers_le
  | ordered hspells _ =>
    refine Nat.succ_le_succ (hspells.nestingOfMembers_le.trans ?_)
    exact Nat.le_max_right _ _

/-- The line number adds no brackets to those of the request. -/
theorem Entry.Spells.nesting_toJson_le {d : Draft} {entry : Entry} (h : Spells d entry) :
    entry.toJson.nesting ≤ d.nesting := by
  obtain ⟨-, -, hspells, -, -⟩ := h
  refine Nat.succ_le_succ (Json.nestingOfMembers_le_iff.mpr fun member hmember => ?_)
  rcases List.mem_append.mp hmember with hmember | hmember
  · exact Json.nestingOfMembers_le_iff.mp hspells.nestingOfMembers_le member hmember
  · obtain rfl := List.mem_singleton.mp hmember
    cases entry.line <;> exact Nat.zero_le _

/-! ### The forms are spellings -/

theorem lt_of_lineOfDraft {d : Draft} {n : Nat} (h : lineOfDraft d = .ok (some n)) :
    n < lineLimit := by
  cases d with
  | numeral numeral =>
    rw [lineOfDraft] at h
    split at h
    · split at h
      · rename_i hlt
        cases h
        exact hlt
      · cases h
    · cases h
  | _ => cases h

/-- **The line number of a spelled entry fits.** -/
theorem Entry.Spells.line_lt {d : Draft} {entry : Entry} (h : Spells d entry) :
    ∀ n ∈ entry.line, n < lineLimit := by
  obtain ⟨-, -, -, hline, -⟩ := h
  intro n hn
  rw [Option.mem_def.mp hn] at hline
  obtain _ | ⟨-, hcontent⟩ := hline
  exact lt_of_lineOfDraft hcontent

/-- The draft of a written request spells the request. It is what is left of a written entry if the
line number is taken out. -/
theorem Request.standsIn_draft {request : Request} (h : ∀ node ∈ request.nodes, node.Sound) :
    StandsIn request.toJson.draft request := by
  have hfilter : (Json.memberDrafts (request.members ++ [("line", .null)])).filter
      (fun member => member.1 ≠ "line") = Json.memberDrafts request.members := by
    cases request <;> rfl
  have hspells := (spells_filter_iff request.op.notMem_fieldKeys.2).mpr (spells_draft h .null)
  rw [hfilter] at hspells
  refine .keyed ?_ hspells (membersWhole_iff.mp (Json.membersWhole_drafts _))
  cases request <;> rfl

theorem Request.inRange_toJson (request : Request) : request.toJson.inRange = true := by
  have hentry : (Entry.toJson ⟨request, none⟩).inRange = true := Entry.inRange_toJson (by simp)
  refine Json.membersInRange_iff.mpr fun member hmember => ?_
  exact Json.membersInRange_iff.mp hentry member (List.mem_append_left _ hmember)

/-- What is found in a text is nested no deeper than the limit, on either pass. -/
theorem Pass.nesting_document_le (pass : Pass) (source : String) :
    (pass.document source).draft.nesting ≤ Json.nestingLimit := by
  cases pass with
  | streamed => exact Document.nesting_skim_le source
  | stored => exact Document.nesting_read_le source

/-! ### Formats -/

/-- What a text that stands by itself can be read as. -/
inductive Format where
  | node
  | argument
  | parameter
  | name
  | request
  | entry

/-- What is shown of a value beside its JSON form. -/
inductive Shown where
  | text (text : String)
  | line (line : Option Nat)
  | nothing
  deriving DecidableEq

namespace Format

/-- The values of a format. -/
def Value : Format → Type
  | node => Node
  | argument => Argument
  | parameter => Parameter
  | name => String
  | request => Request
  | entry => Entry

/-- Decodes a value of a format. -/
def ofDraft : (format : Format) → Draft → Except ReadError format.Value
  | node => Node.ofDraft .streamed
  | argument => Argument.ofDraft .streamed
  | parameter => Parameter.ofDraft .streamed
  | name => Draft.asText
  | request => Request.ofDraft
  | entry => Entry.ofDraft

/-- Reads a text in a format. -/
def read : (format : Format) → String → Except ReadError format.Value
  | node => Node.read
  | argument => Argument.read
  | parameter => Parameter.read
  | name => decodeText Draft.asText
  | request => Request.read
  | entry => Entry.read

/-- The JSON form of a value. -/
def toJson : (format : Format) → format.Value → Json
  | node => Node.toJson
  | argument => Argument.toJson
  | parameter => Parameter.toJson
  | name => Json.text
  | request => Request.toJson
  | entry => Entry.toJson

/-- What is shown of a value: the text of a type expression, the line number of an entry. -/
def shown : (format : Format) → format.Value → Shown
  | node => fun value => .text value.text
  | argument => fun value => .text value.text
  | parameter => fun value => .text value.text
  | name => .text
  | request => fun _ => .nothing
  | entry => fun value => .line value.line

/-- The answer to a text: what it was read as is written back, and shown. -/
def answer (format : Format) (source : String) : Except ReadError (String × Shown) :=
  (format.read source).map fun value => ((format.toJson value).compact, format.shown value)

/-- How a text of a format reaches its decoder. -/
def pass : Format → Pass
  | node | argument | parameter | name => .streamed
  | request | entry => .stored

theorem read_eq (format : Format) (source : String) :
    format.read source = decodeDocument format.ofDraft (format.pass.document source) := by
  cases format <;> rfl

variable {format : Format} {d : Draft} {value : format.Value}

/-- **The form of a value is no deeper than any draft that it is decoded from.** -/
theorem nesting_toJson_le (h : format.ofDraft d = .ok value) :
    (format.toJson value).nesting ≤ d.nesting := by
  cases format with
  | node => exact (Node.ofDraft_eq_ok_iff.mp h).nesting_toJson_le
  | argument => exact (Argument.ofDraft_eq_ok_iff.mp h).nesting_toJson_le
  | parameter => exact (Parameter.ofDraft_eq_ok_iff.mp h).nesting_toJson_le
  | name => exact Nat.zero_le _
  | request => exact (Request.ofDraft_eq_ok_iff.mp h).nesting_toJson_le
  | entry => exact (Entry.ofDraft_eq_ok_iff.mp h).nesting_toJson_le

/-- **The form of a decoded value is decoded as this value.** -/
theorem ofDraft_draft_toJson (h : format.ofDraft d = .ok value) :
    format.ofDraft (format.toJson value).draft = .ok value := by
  cases format with
  | node => exact Node.ofDraft_eq_ok_iff.mpr ((Node.ofDraft_eq_ok_iff.mp h).sound.spells _)
  | argument =>
    have hspells := Argument.ofDraft_eq_ok_iff.mp h
    refine Argument.ofDraft_eq_ok_iff.mpr (Argument.spells_draft ?_ _)
    rintro node rfl
    exact hspells.sound
  | parameter =>
    have hspells := Parameter.ofDraft_eq_ok_iff.mp h
    exact Parameter.ofDraft_eq_ok_iff.mpr
      (Parameter.spells_draft (fun _ hnode => hspells.sound hnode) _)
  | name => rfl
  | request =>
    have hstands := Request.ofDraft_eq_ok_iff.mp h
    exact Request.ofDraft_eq_ok_iff.mpr
      (Request.standsIn_draft fun _ hnode => hstands.sound hnode)
  | entry =>
    have hspells := Entry.ofDraft_eq_ok_iff.mp h
    exact Entry.ofDraft_eq_ok_iff.mpr
      (Entry.spells_draft (fun _ hnode => hspells.sound hnode) hspells.line_lt)

/-- The only numerals of a form are line numbers. -/
theorem inRange_toJson (h : format.ofDraft d = .ok value) :
    (format.toJson value).inRange = true := by
  cases format with
  | node => exact Node.inRange_toJson value
  | argument => exact Argument.inRange_toJson value
  | parameter => exact Parameter.inRange_toJson value
  | name => rfl
  | request => exact Request.inRange_toJson value
  | entry => exact Entry.inRange_toJson (Entry.ofDraft_eq_ok_iff.mp h).line_lt

/-- **What was read can be written back and is read again as the same.** -/
theorem read_compact {source : String} (h : format.read source = .ok value) :
    format.read (format.toJson value).compact = .ok value := by
  rw [read_eq] at h ⊢
  obtain ⟨hdecode, -⟩ := decodeDocument_eq_ok_iff.mp h
  have hinRange := inRange_toJson hdecode
  -- of the text that was read no more brackets were found than the limit allows, and the form has no
  -- more than were found
  have hnesting := (nesting_toJson_le hdecode).trans (format.pass.nesting_document_le source)
  rw [decodeDocument_eq_decode (Json.says_compact _) ⟨hinRange, hnesting⟩]
  exact ofDraft_draft_toJson hdecode

theorem answer_eq_ok_iff {source json : String} {shown : Shown} :
    format.answer source = .ok (json, shown) ↔
      ∃ value, format.read source = .ok value ∧
        (format.toJson value).compact = json ∧ format.shown value = shown := by
  rw [answer, map_eq_ok_iff]
  simp only [Prod.mk.injEq]

/-- **Reading normalises, in one step.** Whatever text a reader accepts, it accepts what it writes
back for it as well, reads it as the same value, and gives the same answer to it. Texts that get
this answer are those that are read as this value, so that writing back takes away the whole
difference between the spellings of a value, and no other. -/
theorem answer_written {source json : String} {shown : Shown}
    (h : format.answer source = .ok (json, shown)) :
    (∃ value, format.read source = .ok value ∧ format.read json = .ok value) ∧
    format.answer json = .ok (json, shown) ∧
    ∀ other, format.answer other = .ok (json, shown) ↔ format.read other = format.read source := by
  obtain ⟨value, hread, rfl, rfl⟩ := answer_eq_ok_iff.mp h
  have hback := read_compact hread
  refine ⟨⟨value, hread, hback⟩, answer_eq_ok_iff.mpr ⟨value, hback, rfl, rfl⟩, fun other => ?_⟩
  constructor
  · intro hother
    obtain ⟨value', hread', hjson, -⟩ := answer_eq_ok_iff.mp hother
    -- both values are what is read of the same written text
    have hback' := read_compact hread'
    rw [hjson, hback] at hback'
    rw [hread', hread, hback']
  · intro hother
    exact answer_eq_ok_iff.mpr ⟨value, hother.trans hread, rfl, rfl⟩

/-- An entry with spaces, the index of its operation behind the fields, a member that nobody asked
for, a body in an array, an escape, and an empty object in the place of nothing. A node with a member
that nobody asked for, in which there are a numeral out of range and half of a surrogate pair. And a
node with one in which more brackets are nested than the limit allows. -/
theorem answer_written_entry_and_nodes :
    (∃ json, json = "\x7b\"op\":\"tuple\",\"base\":\"tuple\",\"params\":[\x7b\"callable\":" ++
        "\x7b\"base\":\"typing.Callable\",\"params\":[\"anything\"]\x7d\x7d],\"line\":7\x7d" ∧
      entry.answer ("\x7b \"params\": [\x7b\"callable\": [\"typing.Callable\", [\x7b" ++
          "\"\\u0061nything\": \x7b\x7d\x7d]]\x7d], \"note\": true, \"line\": 7, " ++
          "\"base\": \"tuple\", \"op\": 2 \x7d") = .ok (json, .line (some 7)) ∧
      entry.answer json = .ok (json, .line (some 7))) ∧
    ∃ json, json = "\x7b\"generic\":\x7b\"base\":\"a\",\"params\":[\"nothing\"]\x7d\x7d" ∧
      node.answer ("\x7b\"generic\": \x7b\"note\": [1e999, \"\\ud800\"], " ++
          "\"params\": [\x7b\"nothing\": null\x7d], \"base\": \"a\"\x7d\x7d") =
        .ok (json, .text "a[nothing]") ∧
      node.answer (Json.object [("generic", .object [
          ("note", Nat.repeat (fun value => .array [value]) 200 .null), ("base", .text "a"),
          ("params", .array [.text "nothing"])])]).compact = .ok (json, .text "a[nothing]") ∧
      node.answer json = .ok (json, .text "a[nothing]") := by
  constructor
  · refine ⟨_, rfl, ?answered, (answer_written ?answered).2.1⟩
    decide +kernel
  · refine ⟨_, rfl, ?skipped, ?deep, (answer_written ?skipped).2.1⟩
    case skipped => decide +kernel
    case deep =>
      have hrange : (Json.object [("generic", .object [
          ("note", Nat.repeat (fun value => .array [value]) 200 .null), ("base", .text "a"),
          ("params", .array [.text "nothing"])])]).inRange = true := by
        decide +kernel
      refine answer_eq_ok_iff.mpr ⟨.applied .generic "a" [.nothing], ?_, rfl, rfl⟩
      refine decodeDocument_eq_ok_iff.mpr ?_
      rw [Pass.document, Document.skim_of_says (Json.says_compact _) hrange]
      decide +kernel

end Format

end TypeExpr
