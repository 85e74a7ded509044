import TypeExpr.Proofs.Decode.Value
import TypeExpr.Proofs.Json.Range

/-!
# The language of request files

A request file is read in one pass. Tokens, line numbers, shapes and the nesting limit are looked
at in the order of the text, entry by entry, and what an entry has to be is only known when its
operation has been found. What is accepted in the end can be said in two steps all the same, and
this file does: the text is a JSON text, within the limits of the reader, and its tree has a shape.

| part of the tree | what it has to be |
|---|---|
| the file | an array of entries |
| an entry (`Entry.Denotes`) | an object with one operation, the fields for it, perhaps a line |
| the operation (`Op.Denotes`) | a name or an index |
| the fields (`Request.Denotes`) | each there once, and spelling what it is for |
| the line (`Entry.LineDenotes`) | `null` or a natural number of 64 bits |

The tree belongs to the text: no text says two values (`Json.Says.unique`).
-/

namespace TypeExpr

open Json (Draft Says under)

/-! ### Parts of an entry -/

/-- **The values that denote an operation**: its name, and its index as a numeral. -/
inductive Op.Denotes : Json → Op → Prop
  | name {op : Op} : Denotes (.text op.name) op
  | index {n : Json.Numeral} {index : Nat} {op : Op} : n.natural? = some index →
    ofIndex? index = some op → Denotes (.numeral n) op

theorem Op.ofDraft_draft_eq_ok_iff {value : Json} {op : Op} :
    ofDraft .byNameOrIndex value.draft = .ok op ↔ Denotes value op := by
  constructor
  · intro h
    cases value with
    | text name =>
      rw [Json.draft, ofDraft] at h
      split at h
      · rename_i hname
        obtain rfl := Except.ok.inj h
        obtain rfl := ofName?_eq_some_iff.mp hname
        exact .name
      · cases h
    | numeral n =>
      unfold ofDraft at h
      dsimp only [Json.draft] at h
      split at h
      · rename_i hindex
        obtain rfl := Except.ok.inj h
        obtain ⟨index, hn, hop⟩ := Option.bind_eq_some_iff.mp hindex
        exact .index hn hop
      · cases h
    | _ => cases h
  · rintro (_ | ⟨hn, hop⟩)
    · rw [Json.draft, ofDraft, ofName?_eq_some_iff.mpr rfl]
    · unfold ofDraft
      simp only [Json.draft, hn, Option.bind_some, hop]

/-- **The members that denote a request**, once its operation is known: each of its fields is there
exactly once. Whatever else is among the members is passed over. -/
def Request.Denotes (members : List (String × Json)) : Request → Prop
  | list name => under "name" members = [.text name]
  | typeOf value | isAny value | isNone value | isString value =>
    ∃ content, under "value" members = [content] ∧ value.Spells .stored content.draft
  | tuple base params =>
    under "base" members = [.text base] ∧
      ∃ items, under "params" members = [.array items] ∧
        List.Forall₂ (fun item param => Node.Spells .stored item.draft param) items params
  | callable base params =>
    under "base" members = [.text base] ∧
      ∃ items, under "params" members = [.array items] ∧
        List.Forall₂ (fun item param => Parameter.Spells .stored item.draft param) items params

theorem Request.spells_memberDrafts_iff {members : List (String × Json)} {request : Request} :
    request.Spells (.keyed (Json.memberDrafts members)) ↔ request.Denotes members := by
  constructor
  · intro h
    cases h with
    | list hname => exact Json.sole_text_iff.mp hname
    | typeOf hsole hvalue | isAny hsole hvalue | isNone hsole hvalue | isString hsole hvalue =>
      obtain ⟨content, hunder, rfl⟩ := Json.sole_memberDrafts_iff.mp hsole
      exact ⟨content, hunder, hvalue⟩
    | tuple hboth hparams | callable hboth hparams =>
      obtain ⟨items, hunder, rfl⟩ := Json.sole_array_iff.mp hboth.2
      rw [Json.drafts_eq_map, List.forall₂_map_left_iff] at hparams
      exact ⟨Json.sole_text_iff.mp hboth.1, items, hunder, hparams⟩
  · intro h
    have hvalue {content : Json} (hunder : under "value" members = [content]) :
        Sole "value" content.draft (Json.memberDrafts members) :=
      Json.sole_memberDrafts_iff.mpr ⟨content, hunder, rfl⟩
    have hboth {base : String} {items : List Json} (hbase : under "base" members = [.text base])
        (hparams : under "params" members = [.array items]) :
        (Fields.keyed (Json.memberDrafts members)).HasBoth "base" (.text base) "params"
          (.array (items.map Json.draft) true) :=
      ⟨Json.sole_text_iff.mpr hbase,
        Json.sole_array_iff.mpr ⟨items, hparams, Json.drafts_eq_map items⟩⟩
    cases request with
    | list name => exact .list (Json.sole_text_iff.mpr h)
    | typeOf value | isAny value | isNone value | isString value =>
      obtain ⟨content, hunder, hspells⟩ := h
      constructor
      · exact hvalue hunder
      · exact hspells
    | tuple base params | callable base params =>
      obtain ⟨hbase, items, hunder, hparams⟩ := h
      constructor
      · exact hboth hbase hunder
      · exact List.forall₂_map_left_iff.mpr hparams

namespace Entry

/-- **The line number that the contents of its members denote**, if there is at most one of them:
a numeral in plain digits that fits, or `null` for none. -/
inductive LineDenotes : List Json → Option Nat → Prop
  | absent : LineDenotes [] none
  | null : LineDenotes [.null] none
  | number {n : Json.Numeral} {line : Nat} : n.natural? = some line → line < lineLimit →
    LineDenotes [.numeral n] (some line)

/-- There is no line, or one member gives it. -/
theorem lineDenotes_iff {contents : List Json} {line : Option Nat} :
    LineDenotes contents line ↔
      contents = [] ∧ line = none ∨ ∃ content, contents = [content] ∧ LineDenotes [content] line := by
  constructor
  · intro h
    cases h with
    | absent => exact .inl ⟨rfl, rfl⟩
    | null => exact .inr ⟨_, rfl, .null⟩
    | number hn hlt => exact .inr ⟨_, rfl, .number hn hlt⟩
  · rintro (⟨rfl, rfl⟩ | ⟨content, rfl, h⟩)
    · exact .absent
    · exact h

theorem lineOfDraft_draft_eq_ok_iff {value : Json} {line : Option Nat} :
    lineOfDraft value.draft = .ok line ↔ LineDenotes [value] line := by
  constructor
  · intro h
    cases value with
    | null =>
      obtain rfl := Except.ok.inj h
      exact .null
    | numeral n =>
      rw [Json.draft, lineOfDraft] at h
      split at h
      · rename_i k hk
        split at h
        · rename_i hlt
          obtain rfl := Except.ok.inj h
          exact .number hk hlt
        · cases h
      · cases h
    | _ => cases h
  · rintro (_ | _ | ⟨hn, hlt⟩)
    · rfl
    · rw [Json.draft, lineOfDraft, hn]
      exact if_pos hlt

theorem hasLine_memberDrafts_iff {members : List (String × Json)} {line : Option Nat} :
    HasLine (Json.memberDrafts members) line ↔ LineDenotes (under "line" members) line := by
  have hnil : (∀ member ∈ Json.memberDrafts members, member.1 ≠ "line") ↔
      under "line" members = [] := by
    rw [Json.memberDrafts_eq_map, List.forall_mem_map, Json.under_eq_nil_iff]
  constructor
  · rintro (hne | ⟨hsole, hline⟩)
    · rw [hnil.mp hne]
      exact .absent
    · obtain ⟨content, hunder, rfl⟩ := Json.sole_memberDrafts_iff.mp hsole
      rw [hunder]
      exact lineOfDraft_draft_eq_ok_iff.mp hline
  · intro h
    rcases hunder : under "line" members with _ | ⟨content, _ | ⟨other, more⟩⟩
    · rw [hunder] at h
      cases h
      exact .absent (hnil.mpr hunder)
    · rw [hunder] at h
      exact .given (Json.sole_memberDrafts_iff.mpr ⟨content, hunder, rfl⟩)
        (lineOfDraft_draft_eq_ok_iff.mpr h)
    · rw [hunder] at h
      cases h

/-- **The trees that denote an entry.** -/
inductive Denotes : Json → Entry → Prop
  | mk {members : List (String × Json)} {operation : Json} {entry : Entry} :
    under "op" members = [operation] → entry.request.op.Denotes operation →
    entry.request.Denotes members → LineDenotes (under "line" members) entry.line →
      Denotes (.object members) entry

theorem denotes_object_iff {members : List (String × Json)} {entry : Entry} :
    Denotes (.object members) entry ↔
      (∃ operation, under "op" members = [operation] ∧ entry.request.op.Denotes operation) ∧
        entry.request.Denotes members ∧ LineDenotes (under "line" members) entry.line := by
  constructor
  · rintro ⟨hunder, hop, hrequest, hline⟩
    exact ⟨⟨_, hunder, hop⟩, hrequest, hline⟩
  · rintro ⟨⟨_, hunder, hop⟩, hrequest, hline⟩
    exact .mk hunder hop hrequest hline

/-- **The draft of a tree spells an entry** if the tree denotes it. -/
theorem spells_draft_iff {value : Json} {entry : Entry} :
    Spells value.draft entry ↔ Denotes value entry := by
  constructor
  · intro h
    generalize hd : value.draft = d at h
    obtain ⟨hop, hdecode, hspells, hline, -⟩ := h
    obtain ⟨-, members, rfl, rfl⟩ := Json.draft_eq_object_iff.mp hd
    obtain ⟨operation, hunder, rfl⟩ := Json.sole_memberDrafts_iff.mp hop
    exact .mk hunder (Op.ofDraft_draft_eq_ok_iff.mp hdecode)
      (Request.spells_memberDrafts_iff.mp hspells) (hasLine_memberDrafts_iff.mp hline)
  · rintro ⟨hunder, hop, hrequest, hline⟩
    refine .mk (Json.sole_memberDrafts_iff.mpr ⟨_, hunder, rfl⟩)
      (Op.ofDraft_draft_eq_ok_iff.mpr hop) (Request.spells_memberDrafts_iff.mpr hrequest)
      (hasLine_memberDrafts_iff.mpr hline) fun member hmember _ => ?_
    exact membersWhole_iff.mp (Json.membersWhole_drafts _) member hmember

end Entry

/-- A tree denotes one entry at most. -/
theorem Entry.Denotes.unique {value : Json} {entry other : Entry} (h : Entry.Denotes value entry)
    (h' : Entry.Denotes value other) : entry = other := by
  have hentry := Entry.ofDraft_eq_ok_iff.mpr (Entry.spells_draft_iff.mpr h)
  have hother := Entry.ofDraft_eq_ok_iff.mpr (Entry.spells_draft_iff.mpr h')
  exact Except.ok.inj (hentry.symm.trans hother)

/-! ### Files -/

namespace RequestFile

/-- The entries of a text are those of its tree. -/
theorem readEntries_eq_ok_iff_denotes {source : String} {entries : List Entry} :
    readEntries source = .ok entries ↔
      ∃ items, Says source (.array items) ∧ (Json.array items).Admissible Json.nestingLimit ∧
        List.Forall₂ Entry.Denotes items entries := by
  simp only [readEntries_eq_ok_iff, Json.Document.read_eq_iff]
  constructor
  · rintro ⟨ds, ⟨value, hd, hsource, hvalue⟩, hentries⟩
    obtain ⟨-, items, rfl, rfl⟩ := Json.draft_eq_array_iff.mp hd.symm
    rw [Json.drafts_eq_map, List.forall₂_map_left_iff] at hentries
    exact ⟨items, hsource, hvalue, hentries.imp fun _ _ => Entry.spells_draft_iff.mp⟩
  · rintro ⟨items, hsource, hvalue, hentries⟩
    refine ⟨Json.drafts items, ⟨_, rfl, hsource, hvalue⟩, ?_⟩
    rw [Json.drafts_eq_map, List.forall₂_map_left_iff]
    exact hentries.imp fun _ _ => Entry.spells_draft_iff.mpr

/-- A text that says an array is read as the entries that the items denote. -/
theorem readEntries_eq_ok_iff_forall₂ {source : String} {items : List Json} {entries : List Entry}
    (hsource : Says source (.array items))
    (hitems : (Json.array items).Admissible Json.nestingLimit) :
    readEntries source = .ok entries ↔ List.Forall₂ Entry.Denotes items entries := by
  rw [readEntries_eq_ok_iff_denotes]
  constructor
  · rintro ⟨others, hothers, hadmissible, hentries⟩
    -- the text has one tree only
    cases hsource.unique hothers hitems.inRange hadmissible.inRange
    exact hentries
  · exact fun hentries => ⟨items, hsource, hitems, hentries⟩

/-- An entry that asks about the dynamic type, with a numeral in a member that nobody asks for. -/
def noted (n : Json.Numeral) : Json :=
  .object [("op", .text "is_any"), ("value", .text "anything"), ("note", .numeral n)]

theorem denotes_noted (n : Json.Numeral) : Entry.Denotes (noted n) ⟨.isAny .anything, none⟩ := by
  have hop : under "op" [("op", .text "is_any"), ("value", .text "anything"),
      ("note", .numeral n)] = [.text Op.isAny.name] := rfl
  exact .mk hop .name ⟨_, rfl, .name rfl⟩ .absent

theorem inRange_noted {n : Json.Numeral} : (Json.array [noted n]).inRange = n.inRange := by
  simp [noted, Json.inRange, Json.allInRange, Json.membersInRange]

theorem numeral_mem_tokens_noted {n m : Json.Numeral} :
    .numeral n ∈ (Json.array [noted m]).tokens ↔ n = m := by
  simp [noted, Json.tokens, Json.itemTokens, Json.memberTokens]

/-- **The language of request files**, read in one pass and told in two steps. A text is accepted,
under whatever path, if and only if it is a JSON text within the limits whose tree is an array of
trees that denote entries. The entries of the file that is read are the ones that these trees
denote, one for each and in their order.

The limit for numerals is that of the reader (`Json.Numeral.inRange`), which is not quite that of
double precision: see `finite_refused_and_infinite_accepted`. -/
theorem parse_language (path source : String) :
    ((∃ file, (parse path source).value = .ok file) ↔
      ∃ items, Says source (.array items) ∧ (Json.array items).Admissible Json.nestingLimit ∧
        ∀ item ∈ items, ∃ entry, Entry.Denotes item entry) ∧
    ∀ file items, (parse path source).value = .ok file → Says source (.array items) →
      (Json.array items).Admissible Json.nestingLimit →
        List.Forall₂ Entry.Denotes items file.entries := by
  constructor
  · simp only [← exists_forall₂_iff]
    constructor
    · rintro ⟨file, hfile⟩
      obtain ⟨-, -, hread⟩ := parse_eq_ok_iff.mp hfile
      obtain ⟨items, hsource, hitems, hentries⟩ := readEntries_eq_ok_iff_denotes.mp hread
      exact ⟨items, hsource, hitems, file.entries, hentries⟩
    · rintro ⟨items, hsource, hitems, entries, hentries⟩
      have hread := readEntries_eq_ok_iff_denotes.mpr ⟨items, hsource, hitems, hentries⟩
      exact ⟨_, parse_of_readEntries hread path⟩
  · intro file items hfile hsource hitems
    obtain ⟨-, -, hread⟩ := parse_eq_ok_iff.mp hfile
    exact (readEntries_eq_ok_iff_forall₂ hsource hitems).mp hread

/-- The tree of a file that gives an operation by its index, behind the field for it and a member
that no operation knows, denotes one entry. -/
theorem parse_language_one :
    List.Forall₂ Entry.Denotes
      [.object [("value", .text "nothing"), ("note", .array []), ("op", .numeral (.ofNat 5))]]
      [⟨.isNone .nothing, none⟩] := by
  have hitem : Entry.Denotes
      (.object [("value", .text "nothing"), ("note", .array []), ("op", .numeral (.ofNat 5))])
      ⟨.isNone .nothing, none⟩ :=
    .mk rfl (.index rfl rfl) ⟨_, rfl, .name rfl⟩ .absent
  have hindex : (Json.Numeral.ofNat 5).inRange = true := Json.Numeral.inRange_ofNat (by decide)
  have hlimit : (Json.array [.object [("value", .text "nothing"), ("note", .array []),
      ("op", .numeral (.ofNat 5))]]).Admissible Json.nestingLimit :=
    ⟨by simp [Json.inRange, Json.allInRange, Json.membersInRange, hindex], by decide⟩
  have hread := (readEntries_eq_ok_iff_forall₂ (Json.says_compact _) hlimit).mpr
    (.cons hitem .nil)
  exact (parse_language "requests.json" _).2 ⟨"requests.json", _, _⟩ _
    (parse_of_readEntries hread _) (Json.says_compact _) hlimit

/-- **The range of the reader is not the range of the doubles.** In the first file there is a numeral
whose nearest double is the greatest there is, in a member that nobody asks for. All else is as it
has to be, and the file is refused. In the second there is a numeral that rounds to infinity, and the
file is accepted. -/
theorem finite_refused_and_infinite_accepted :
    (∃ source items, source = "[\x7b\"op\":\"is_any\",\"value\":\"anything\"," ++
        "\"note\":17976931348623158e292\x7d]" ∧
      Says source (.array items) ∧ (∀ n, .numeral n ∈ (Json.array items).tokens → n.IsFinite) ∧
      (Json.array items).nesting ≤ Json.nestingLimit ∧
      (∀ item ∈ items, ∃ entry, Entry.Denotes item entry) ∧
      ∀ path, ¬∃ file, (parse path source).value = .ok file) ∧
    ∃ source value n, source = "[\x7b\"op\":\"is_any\",\"value\":\"anything\"," ++
        "\"note\":179769313486231581e291\x7d]" ∧
      Says source value ∧ .numeral n ∈ value.tokens ∧ ¬n.IsFinite ∧
      ∀ path, ∃ file, (parse path source).value = .ok file := by
  constructor
  · have hsource : Says _ (.array [noted .nearest]) := Json.says_compact _
    refine ⟨_, _, by decide +kernel, hsource, fun n hn => ?_, by decide,
      List.forall_mem_singleton.mpr ⟨_, denotes_noted _⟩, fun path ⟨file, hfile⟩ => ?_⟩
    · rw [numeral_mem_tokens_noted.mp hn]
      exact Json.Numeral.isFinite_nearest
    · obtain ⟨-, -, hread⟩ := parse_eq_ok_iff.mp hfile
      obtain ⟨items, hsource', hitems, -⟩ := readEntries_eq_ok_iff_denotes.mp hread
      have hrange := hsource.inRange_of_says hsource' hitems.inRange
      rw [inRange_noted, Json.Numeral.inRange_nearest] at hrange
      cases hrange
  · have hsource : Says _ (.array [noted .beyond]) := Json.says_compact _
    have hlimit : (Json.array [noted .beyond]).Admissible Json.nestingLimit :=
      ⟨inRange_noted.trans Json.Numeral.inRange_beyond, by decide⟩
    refine ⟨_, _, .beyond, by decide +kernel, hsource, numeral_mem_tokens_noted.mpr rfl,
      Json.Numeral.not_isFinite_beyond, fun path => ?_⟩
    have hread := (readEntries_eq_ok_iff_forall₂ hsource hlimit).mpr (.cons (denotes_noted _) .nil)
    exact ⟨_, parse_of_readEntries hread path⟩

end RequestFile

end TypeExpr
