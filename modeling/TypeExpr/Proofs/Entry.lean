import TypeExpr.Proofs.Decode.Request
import TypeExpr.Proofs.Node.RoundTrip

/-!
# Request files read back

Writing an entry and reading it go different ways. The written form is one object, the operation
first, then the fields, then the line number. The reader takes the line number out, looks up the
operation, leaves it out, and decodes the fields from what is left. None of this matters if what
was read is told by conditions on the members, as the spellings of entries do: the written form
has each of its members once, so it is one of these spellings.

What is written reads back under three conditions. The nodes are sound, the line numbers have
64 bits, and the brackets are not nested too deep. Line numbers are the only numerals of a
written form.
-/

namespace TypeExpr

open Json (Draft Document)

/-! ### The draft of a written form spells what was written -/

theorem forall₂_drafts {α : Type} {R : Draft → α → Prop} {form : α → Json} {values : List α}
    (h : ∀ value ∈ values, R (form value).draft value) :
    List.Forall₂ R (Json.drafts (values.map form)) values := by
  induction values with
  | nil => exact .nil
  | cons value values ih =>
    exact .cons (h value List.mem_cons_self)
      (ih fun value hmem => h value (List.mem_cons_of_mem _ hmem))

theorem Argument.spells_draft {item : Argument} (h : ∀ node, item = .type node → node.Sound)
    (pass : Pass) : Argument.Spells pass item.toJson.draft item := by
  cases item with
  | type node => exact .type ((h node rfl).spells pass)
  | ellipsis => exact .name

theorem Parameter.spells_draft {param : Parameter} (h : ∀ node ∈ param.nodes, node.Sound)
    (pass : Pass) : Parameter.Spells pass param.toJson.draft param := by
  cases param with
  | args items =>
    refine .args (forall₂_drafts fun item hitem => Argument.spells_draft ?_ pass)
    rintro node rfl
    exact h node (List.mem_filterMap.mpr ⟨.type node, hitem, rfl⟩)
  | type node => exact .type ((h node (List.mem_singleton_self node)).spells pass)

/-- The members of a written entry spell the fields of its request. -/
theorem Request.spells_draft {request : Request} (h : ∀ node ∈ request.nodes, node.Sound)
    (line : Json) :
    request.Spells (.keyed (Json.memberDrafts (request.members ++ [("line", line)]))) := by
  cases request with
  | list name => exact .list rfl
  | typeOf value => exact .typeOf rfl ((h value (.head _)).spells .stored)
  | tuple base params =>
    exact .tuple ⟨rfl, rfl⟩ (forall₂_drafts fun param hparam => (h param hparam).spells .stored)
  | callable base params =>
    refine .callable ⟨rfl, rfl⟩ (forall₂_drafts fun param hparam => ?_)
    exact Parameter.spells_draft
      (fun node hnode => h node (List.mem_flatMap.mpr ⟨param, hparam, hnode⟩)) .stored
  | isAny value => exact .isAny rfl ((h value (.head _)).spells .stored)
  | isNone value => exact .isNone rfl ((h value (.head _)).spells .stored)
  | isString value => exact .isString rfl ((h value (.head _)).spells .stored)

namespace Entry

theorem lineOfDraft_draft {line : Option Nat} (h : ∀ n ∈ line, n < lineLimit) :
    lineOfDraft (lineJson line).draft = .ok line := by
  cases line with
  | none => rfl
  | some n =>
    change (if n < lineLimit then Except.ok (some n) else .error ReadError.misshapen) = _
    rw [if_pos (h n rfl)]

/-- **The draft of a written entry spells the entry.** -/
theorem spells_draft {entry : Entry} (hsound : ∀ node ∈ entry.request.nodes, node.Sound)
    (hline : ∀ n ∈ entry.line, n < lineLimit) : Spells entry.toJson.draft entry := by
  obtain ⟨request, line⟩ := entry
  have hop : Op.ofDraft .byNameOrIndex (.text request.op.name) = .ok request.op := by
    cases request <;> rfl
  -- whatever the request, each key of the written form is there once
  refine .mk ?_ hop (Request.spells_draft hsound _)
    (.given ?_ (lineOfDraft_draft hline)) fun member hmember _ => ?_
  · cases request <;> rfl
  · cases request <;> rfl
  · exact membersWhole_iff.mp (Json.membersWhole_drafts _) member hmember

end Entry

/-! ### Numerals of a written form -/

theorem allInRange_map {α : Type} {form : α → Json} {values : List α}
    (h : ∀ value ∈ values, (form value).inRange = true) :
    Json.allInRange (values.map form) = true :=
  Json.allInRange_iff.mpr (List.forall_mem_map.mpr h)

theorem Argument.inRange_toJson (item : Argument) : item.toJson.inRange = true := by
  cases item with
  | type node => simp [toJson, Json.inRange, Json.membersInRange, node.inRange_toJson]
  | ellipsis => rfl

theorem Parameter.inRange_toJson (param : Parameter) : param.toJson.inRange = true := by
  cases param with
  | args items =>
    have hitems := allInRange_map fun item (_ : item ∈ items) => item.inRange_toJson
    simp [toJson, Json.inRange, Json.membersInRange, hitems]
  | type node => simp [toJson, Json.inRange, Json.membersInRange, node.inRange_toJson]

namespace Entry

theorem inRange_lineJson {line : Option Nat} (h : ∀ n ∈ line, n < lineLimit) :
    (lineJson line).inRange = true := by
  cases line with
  | none => rfl
  | some n => exact Json.Numeral.inRange_ofNat (h n rfl)

theorem inRange_toJson {entry : Entry} (hline : ∀ n ∈ entry.line, n < lineLimit) :
    entry.toJson.inRange = true := by
  obtain ⟨request, line⟩ := entry
  have hlast := inRange_lineJson hline
  cases request with
  | list name => simp [toJson, Request.members, Request.fields, Json.inRange,
      Json.membersInRange, hlast]
  | typeOf value | isAny value | isNone value | isString value =>
    simp [toJson, Request.members, Request.fields, Json.inRange, Json.membersInRange, hlast,
      value.inRange_toJson]
  | tuple base params =>
    have hparams := allInRange_map fun param (_ : param ∈ params) => param.inRange_toJson
    simp [toJson, Request.members, Request.fields, Json.inRange, Json.membersInRange, hlast,
      hparams]
  | callable base params =>
    have hparams := allInRange_map fun param (_ : param ∈ params) => param.inRange_toJson
    simp [toJson, Request.members, Request.fields, Json.inRange, Json.membersInRange, hlast,
      hparams]

end Entry

/-! ### Files -/

namespace RequestFile

variable {entries : List Entry}
  (hsound : ∀ entry ∈ entries, ∀ node ∈ entry.request.nodes, node.Sound)
  (hline : ∀ entry ∈ entries, ∀ n ∈ entry.line, n < lineLimit)
  (hnesting : (Json.array (entries.map Entry.toJson)).nesting ≤ Json.nestingLimit)

include hsound hline hnesting

/-- The array of written entries is read as these entries. -/
theorem readEntries_compact :
    readEntries (Json.array (entries.map Entry.toJson)).compact = .ok entries := by
  have hinRange : (Json.array (entries.map Entry.toJson)).inRange = true :=
    allInRange_map fun entry hentry => Entry.inRange_toJson (hline entry hentry)
  have hspells : List.Forall₂ Entry.Spells (Json.drafts (entries.map Entry.toJson)) entries :=
    forall₂_drafts fun entry hentry =>
      Entry.spells_draft (hsound entry hentry) (hline entry hentry)
  refine readEntries_eq_ok_iff.mpr ⟨_, ?_, hspells⟩
  exact Document.read_of_says (Json.says_compact _) hinRange hnesting

/-- **Written entries read back**, all of them and in order, under whatever path: the entries of a
file that is the array of written entries are these entries, if their nodes are sound, their line
numbers have 64 bits and the brackets are not nested too deep. -/
theorem parse_written (path : String) :
    ∃ file, (parse path (Json.array (entries.map Entry.toJson)).compact).value = .ok file ∧
      file.entries = entries := by
  have hread := readEntries_compact hsound hline hnesting
  exact ⟨_, parse_of_readEntries hread path, rfl⟩

end RequestFile

/-- A file of two entries, one of them with the greatest line number. -/
theorem RequestFile.parse_written_two :
    ∃ file, (parse "requests.json" (Json.array (List.map Entry.toJson
        [⟨.callable "typing.Callable" [.args [.type (.named "int"), .ellipsis]], none⟩,
          ⟨.isNone (.applied .callable "typing.Callable" [.anything]),
            some 18446744073709551615⟩])).compact).value = .ok file ∧
      file.entries = [⟨.callable "typing.Callable" [.args [.type (.named "int"), .ellipsis]], none⟩,
        ⟨.isNone (.applied .callable "typing.Callable" [.anything]), some 18446744073709551615⟩] :=
  parse_written (by decide) (by decide) (by decide) _

end TypeExpr
