import TypeExpr.Proofs.BadLine
import TypeExpr.Proofs.Entry
import TypeExpr.Proofs.Language

/-!
# The first fault of a file

A file is refused for one fault, and when it has many the order of the text does not say which. Two
kinds compete. That the text is no JSON, and that a line is bad, is found at its place. What is wrong
with the shape of an entry is found at the closing brace, although it may stand far in front of it,
but it is found before anything behind the entry is looked at.

So there are three things that may happen to the first entry that is not legal.

| the entry | what the file is refused for |
|---|---|
| is a whole object that denotes no entry | what is wrong with the object |
| comes to a bad line (`Entry.MeetsBadLine`) | its shape |
| breaks off (`Entry.BreaksOff`) without a bad line before | being no JSON |

The first two may come together, and then it is the line that is wrong with the object.

The earlier entries take part in none of this: they are decoded one after the other, and each of
them leaves the reader right behind its comma. That is shown once, for any entry that comes next
(`RequestFile.readEntries_eq_error`), and what is left for each case is about that entry alone.
-/

namespace TypeExpr

open Json (Draft Token Says)

/-! ### The texts of an entry -/

namespace Entry

/-- How deep brackets may be nested in an entry. The array of the file takes one level. -/
def nestingLimit : Nat := 126

/-- **The text of a legal entry.** -/
def LegalText (text : String) : Prop :=
  ∃ value entry, Says text value ∧ value.Admissible nestingLimit ∧ Denotes value entry

/-- **A text that breaks off in an entry**: it begins with the bracket that opens an object, and no
front of it is the text of a whole object within the limits. -/
def BreaksOff (text : String) : Prop :=
  Token.Begins text.toList [.openObject] ∧
    ¬∃ members, Token.Begins text.toList (Json.object members).tokens ∧
      (Json.object members).nesting ≤ nestingLimit

/-- **A text that comes to a bad line in an entry**: it begins with the bracket that opens an object
and with members up to a bad line. The bracket takes one of the levels of the entry. -/
def MeetsBadLine (text : String) : Prop :=
  ∃ ts, Token.Begins text.toList (.openObject :: ts) ∧ EndsInBadLine 125 false ts

/-- What is written for an entry is a legal text. -/
theorem legalText_compact {entry : Entry} (hsound : ∀ node ∈ entry.request.nodes, node.Sound)
    (hline : ∀ n ∈ entry.line, n < lineLimit) (hnesting : entry.toJson.nesting ≤ nestingLimit) :
    LegalText entry.toJson.compact := by
  have hrange := inRange_toJson hline
  have hdenotes := spells_draft_iff.mp (spells_draft hsound hline)
  exact ⟨entry.toJson, entry, Json.says_compact _, ⟨hrange, hnesting⟩, hdenotes⟩

end Entry

/-- **A file is refused** with this error: reading it gives the error and nothing else, and so does
evaluating it, since no request is evaluated. -/
def RequestFile.Refuses (path source : String) (error : ReadError) : Prop :=
  parse path source = .quiet (.error
    ((Trouble.ofCause (.read error)).inContext ("Invalid request file " ++ path))) ∧
  evaluateLoaded (parse path source) = .quiet (.error (.trouble
    ((Trouble.ofCause (.read error)).inContext ("Invalid request file " ++ path))))

/-! ### What comes before -/

theorem mapM_append_eq_error {α β : Type} {decode : α → Except ReadError β} {before : List α}
    {values : List β} (h : List.Forall₂ (fun item value => decode item = .ok value) before values)
    {item : α} {error : ReadError} (hitem : decode item = .error error) (more : List α) :
    (before ++ item :: more).mapM decode = .error error := by
  induction h with
  | nil =>
    rw [List.nil_append, List.mapM_cons, hitem]
    rfl
  | cons hfirst _ ih =>
    rw [List.cons_append, List.mapM_cons, hfirst, ih]
    rfl

namespace RequestFile

theorem refuses_of_readEntries {source : String} {error : ReadError}
    (h : readEntries source = .error error) (path : String) : Refuses path source error := by
  have hparse : parse path source = .quiet (.error
      ((Trouble.ofCause (.read error)).inContext ("Invalid request file " ++ path))) := by
    rw [parse, h]
  rw [Refuses, hparse]
  exact ⟨rfl, rfl⟩

/-- The text of a file up to an entry. -/
def textBefore (earlier : List String) : String :=
  "[" ++ String.join (earlier.map (· ++ ","))

theorem toList_textBefore (earlier : List String) :
    (textBefore earlier).toList = '[' :: earlier.flatMap fun text => text.toList ++ [','] := by
  rw [textBefore, String.toList_append, String.toList_join, List.flatMap_map]
  simp only [String.toList_append]
  rfl

/-- **The first entry that is not legal decides**: what its draft is refused for, as far as the text
goes, the file is refused for. -/
theorem readEntries_eq_error {earlier : List String} {text : String} {us : List Token}
    {error : ReadError} (hearlier : ∀ e ∈ earlier, Entry.LegalText e)
    (hopen : Token.lex text.toList = .openObject :: us)
    (h : Entry.ofDraft ((Draft.reader Entry.nestingLimit).read (.openObject :: us)).found = .error error) :
    readEntries (textBefore earlier ++ text) = .error error := by
  obtain ⟨values, hvalues⟩ := exists_forall₂_iff.mpr hearlier
  have hlegal : ∀ value ∈ values, value.Admissible Entry.nestingLimit ∧
      ∃ entry, Entry.ofDraft value.draft = .ok entry := by
    intro value hmem
    obtain ⟨e, -, entry, -, hvalue, hdenotes⟩ := exists_of_mem_forall₂ hvalues hmem
    exact ⟨hvalue, entry, Entry.ofDraft_eq_ok_iff.mpr (Entry.spells_draft_iff.mpr hdenotes)⟩
  have hlex : Token.lex (textBefore earlier ++ text).toList =
      .openArray :: (Json.tokensBefore values ++ .openObject :: us) := by
    rw [String.toList_append, toList_textBefore, List.cons_append,
      Token.lex_of_scan (by decide) rfl, Json.lex_append_of_forall₂, hopen]
    exact hvalues.imp fun _ _ ⟨_, hsource, hvalue, _⟩ => ⟨hsource, hvalue.inRange⟩
  have hne : ∀ r, Json.tokensBefore values ++ .openObject :: us ≠ .closeArray :: r := by
    intro r
    cases values with
    | nil => exact fun h => by cases h
    | cons value values =>
      rw [Json.tokensBefore, List.flatMap_cons, List.append_assoc, List.append_assoc]
      exact Json.tokens_append_ne value _ r
  -- the draft of the file holds those of the earlier entries, and then that of this one
  obtain ⟨more, hmore⟩ := Draft.exists_items_found (Draft.reader Entry.nestingLimit) (.openObject :: us)
  have hfound := Draft.items_tokensBefore (fun value hmem => (hlegal value hmem).1.nesting_le)
    (.openObject :: us)
  obtain ⟨closed, hdraft⟩ : ∃ closed, (Json.Document.read (textBefore earlier ++ text)).draft =
      .array (Json.drafts values ++
        ((Draft.reader Entry.nestingLimit).read (.openObject :: us)).found :: more) closed := by
    rw [Json.Document.read, Json.Document.of, hlex]
    change ∃ closed, ((Draft.reader (Entry.nestingLimit + 1)).read _).found = _
    rw [Draft.read_openArray hne, ← hmore, ← hfound]
    exact ⟨_, rfl⟩
  obtain ⟨entries, hentries⟩ := exists_forall₂_iff.mpr fun value hmem => (hlegal value hmem).2
  rw [readEntries, decodeStored, decodeDocument, Pass.document, hdraft, Draft.asList,
    Json.drafts_eq_map,
    mapM_append_eq_error (List.forall₂_map_left_iff.mpr hentries) h]
  rfl

end RequestFile

/-! ### The entry itself -/

namespace Entry

/-- **An entry that breaks off** was no JSON, unless it was refused for its line. -/
theorem ofDraft_of_breaksOff {text : String} (h : BreaksOff text) (hline : ¬MeetsBadLine text) :
    ∃ us, Token.lex text.toList = .openObject :: us ∧
      ofDraft ((Draft.reader nestingLimit).read (.openObject :: us)).found =
        .error .malformed := by
  obtain ⟨hopen, hwhole⟩ := h
  obtain ⟨us, hlex⟩ := hopen.exists_lex_eq (List.isChain_singleton _)
  refine ⟨us, hlex, ?_⟩
  -- the object is not read to its end
  have hrest : ((Draft.reader nestingLimit).read (.openObject :: us)).rest = none := by
    cases hread : ((Draft.reader nestingLimit).read (.openObject :: us)).rest with
    | none => rfl
    | some rest =>
      obtain ⟨value, htokens, -, hnesting⟩ := Draft.read_eq_some_iff.mp
        (show (Draft.reader nestingLimit).read (.openObject :: us) = ⟨_, some rest⟩ by
          rw [← hread])
      have hbegins : Token.Begins text.toList value.tokens :=
        Token.begins_of_lex_eq (hlex.trans htokens) value.isFaulty_tokens
      cases value with
      | object members => exact absurd ⟨members, hbegins, hnesting⟩ hwhole
      | array items => cases items <;> cases htokens
      | _ => cases htokens
  have hne : ∀ vs, us ≠ .closeObject :: vs := by
    rintro vs rfl
    cases hrest
  change ((Draft.reader (125 + 1)).read _).rest = none at hrest
  change ofDraft ((Draft.reader (125 + 1)).read _).found = _
  rw [Draft.read_openObject hne] at hrest ⊢
  rw [hrest, ofDraft]
  cases htake : takeLine none (Draft.members (Draft.reader 125) us).found with
  | error e =>
    rcases eq_of_takeLine_eq_error htake with rfl | rfl
    · rfl
    · obtain ⟨ts, more, rfl, hts⟩ := takeLine_eq_misshapen_iff.mp htake
      refine absurd ⟨ts, Token.begins_of_lex_eq hlex ?_, hts⟩ hline
      exact List.forall_mem_cons.mpr ⟨rfl, hts.isFaulty⟩
  | ok got => rfl

/-- **An entry with a bad line** is refused there. -/
theorem ofDraft_of_meetsBadLine {text : String} (h : MeetsBadLine text) :
    ∃ us, Token.lex text.toList = .openObject :: us ∧
      ofDraft ((Draft.reader nestingLimit).read (.openObject :: us)).found =
        .error .misshapen := by
  obtain ⟨ts, hbegins, hts⟩ := h
  obtain ⟨more, hlex⟩ := hbegins.exists_lex_eq ((Token.apart_cons rfl).mpr hts.apart)
  have hne : ∀ us, ts ++ more ≠ .closeObject :: us := by
    intro us
    cases hts <;> exact fun h => by cases h
  refine ⟨ts ++ more, hlex, ?_⟩
  change ofDraft ((Draft.reader (125 + 1)).read _).found = _
  rw [Draft.read_openObject hne, ofDraft, takeLine_eq_misshapen_iff.mpr ⟨ts, more, rfl, hts⟩]
  rfl

/-- **A whole object** is refused as it would be alone, whatever follows it. -/
theorem ofDraft_eq_read {text : String} {members : List (String × Json)}
    (htext : Says text (.object members)) (hmembers : (Json.object members).Admissible nestingLimit)
    (rest : String) : ∃ us, Token.lex (text ++ rest).toList = .openObject :: us ∧
      ofDraft ((Draft.reader nestingLimit).read (.openObject :: us)).found = read text := by
  have hlast : ∀ t ∈ (Json.object members).tokens.getLast?, t.Stops rest.toList := by
    rw [Json.getLast?_tokens_object]
    rintro t ⟨⟩
    exact Token.stops_of_isBounded rfl _
  have hlex : Token.lex (text ++ rest).toList =
      (Json.object members).tokens ++ Token.lex rest.toList := by
    rw [String.toList_append]
    exact htext.lex_append hmembers.inRange hlast
  obtain ⟨us, hus⟩ : ∃ us, (Json.object members).tokens ++ Token.lex rest.toList =
      .openObject :: us := by
    rcases members with _ | ⟨⟨key, value⟩, members⟩ <;> exact ⟨_, rfl⟩
  refine ⟨us, hlex.trans hus, ?_⟩
  have hread := Draft.read_eq_some_iff.mpr ⟨_, hus.symm, rfl, hmembers.nesting_le⟩
  rw [hread, read, decodeStored_eq_decode htext (hmembers.mono (by decide))]

end Entry

namespace RequestFile

/-- **The first fault of a file.** A file whose first entries are legal is refused for the next one,
and with the same error whatever the path and the earlier entries are.

* If that entry is an object that denotes no entry, it is refused for what is wrong with the object,
  as it would be alone and whatever follows it. It is not refused as no JSON.
* If the text breaks off in the entry, the file is refused as no JSON, unless the entry has come to a
  bad line before. What is wrong with the members before does not matter.
* If the entry comes to a bad line, the file is refused as misshapen. Whatever else the entry holds
  and whatever follows does not matter.

In none of the cases a request is evaluated. -/
theorem first_fault :
    (∀ (text : String) (members : List (String × Json)), Says text (.object members) →
      (Json.object members).Admissible Entry.nestingLimit →
      (¬∃ entry, Entry.Denotes (.object members) entry) →
        ∃ error, error ≠ .malformed ∧ Entry.read text = .error error ∧
          ∀ (path : String) (earlier : List String) (rest : String),
            (∀ e ∈ earlier, Entry.LegalText e) →
              Refuses path (textBefore earlier ++ text ++ rest) error) ∧
    (∀ (path : String) (earlier : List String) (text : String),
      (∀ e ∈ earlier, Entry.LegalText e) → Entry.BreaksOff text → ¬Entry.MeetsBadLine text →
        Refuses path (textBefore earlier ++ text) .malformed) ∧
    ∀ (path : String) (earlier : List String) (text : String),
      (∀ e ∈ earlier, Entry.LegalText e) → Entry.MeetsBadLine text →
        Refuses path (textBefore earlier ++ text) .misshapen := by
  refine ⟨?_, ?_, ?_⟩
  · intro text members htext hmembers hnone
    have hread : Entry.read text = Entry.ofDraft (Json.object members).draft :=
      decodeStored_eq_decode htext (hmembers.mono (by decide))
    cases hvalue : Entry.ofDraft (Json.object members).draft with
    | ok entry =>
      refine absurd ⟨entry, ?_⟩ hnone
      exact Entry.spells_draft_iff.mp (Entry.ofDraft_eq_ok_iff.mp hvalue)
    | error error =>
      refine ⟨error, ?_, hread.trans hvalue, fun path earlier rest hearlier => ?_⟩
      · rintro rfl
        exact Entry.unbroken_ofDraft _ hvalue
      · obtain ⟨us, hopen, hdecode⟩ := Entry.ofDraft_eq_read htext hmembers rest
        rw [String.append_assoc]
        exact refuses_of_readEntries (readEntries_eq_error hearlier hopen
          (hdecode.trans (hread.trans hvalue))) path
  · intro path earlier text hearlier hbreaks hline
    obtain ⟨us, hopen, herror⟩ := Entry.ofDraft_of_breaksOff hbreaks hline
    exact refuses_of_readEntries (readEntries_eq_error hearlier hopen herror) path
  · intro path earlier text hearlier hline
    obtain ⟨us, hopen, herror⟩ := Entry.ofDraft_of_meetsBadLine hline
    exact refuses_of_readEntries (readEntries_eq_error hearlier hopen herror) path

/-- Behind a legal entry: an entry of an unknown operation with a text behind it that is no JSON; the
same entry, broken off behind the key of a second operation; and an entry whose line is a truth
value, broken off there. -/
theorem first_fault_unknown_op :
    (∃ text error, Says text (.object [("op", .text "none")]) ∧ error ≠ .malformed ∧
      Refuses "requests.json"
        (textBefore [(Entry.toJson ⟨.list "int", some 1⟩).compact] ++ text ++ "?") error) ∧
    Refuses "requests.json" (textBefore [(Entry.toJson ⟨.list "int", some 1⟩).compact] ++
      String.ofList ([.openObject, .text "op", .colon, .text "none", .comma, .text "op"].flatMap
        Token.write)) .malformed ∧
    Refuses "requests.json" (textBefore [(Entry.toJson ⟨.list "int", some 1⟩).compact] ++
      String.ofList ([.openObject, .text "line", .colon, .bool true].flatMap Token.write))
        .misshapen := by
  have hlegal : ∀ e ∈ [(Entry.toJson ⟨.list "int", some 1⟩).compact], Entry.LegalText e :=
    List.forall_mem_singleton.mpr (Entry.legalText_compact (by decide) (by decide) (by decide))
  have hwritten (ts : List Token) (hlegible : ∀ t ∈ ts, t.Legible) (hapart : Token.Apart ts) :
      Token.lex (String.ofList (ts.flatMap Token.write)).toList = ts := by
    rw [String.toList_ofList]
    exact (Token.spellsRow_write fun t ht => Token.isFaulty_of_legible (hlegible t ht)).lex_eq
      hlegible hapart
  refine ⟨?_, ?_, ?_⟩
  · have htext : Says _ (.object [("op", .text "none")]) := Json.says_compact _
    have hnone : ¬∃ entry, Entry.Denotes (.object [("op", .text "none")]) entry := by
      rintro ⟨entry, hunder, hop, -, -⟩
      obtain rfl : Json.text "none" = _ := (List.cons.inj hunder).1
      cases Op.ofDraft_draft_eq_ok_iff.mpr hop
    obtain ⟨error, hne, -, hrefuses⟩ := first_fault.1 _ _ htext ⟨rfl, by decide⟩ hnone
    exact ⟨_, error, htext, hne, hrefuses _ _ "?" hlegal⟩
  · have hlex := hwritten [.openObject, .text "op", .colon, .text "none", .comma, .text "op"]
      (by simp [Token.Legible]) (by simp [Token.Apart, Token.isBounded])
    have hopen : Token.Begins _ [.openObject] :=
      Token.begins_of_lex_eq hlex (List.forall_mem_singleton.mpr rfl)
    refine first_fault.2.1 _ _ _ hlegal ⟨hopen, ?_⟩ ?_
    · rintro ⟨members, hmembers, -⟩
      obtain ⟨us, hus⟩ := hmembers.exists_lex_eq (Json.apart_tokens _)
      have hlast := List.mem_of_getLast? (Json.getLast?_tokens_object members)
      have hmem := hus ▸ List.mem_append_left us hlast
      rw [hlex] at hmem
      revert hmem
      decide
    · rintro ⟨ts, hts, hline⟩
      obtain ⟨us, hus⟩ := hts.exists_lex_eq ((Token.apart_cons rfl).mpr hline.apart)
      have hmem := hus ▸ List.mem_append_left us (List.mem_cons_of_mem _ hline.mem)
      rw [hlex] at hmem
      revert hmem
      decide
  · have hlex := hwritten [.openObject, .text "line", .colon, .bool true]
      (by simp [Token.Legible]) (by simp [Token.Apart, Token.isBounded])
    refine first_fault.2.2 _ _ _ hlegal ⟨[.text "line", .colon, .bool true], ?_, .bad trivial⟩
    exact Token.begins_of_lex_eq (hlex.trans (List.append_nil _).symm) (by decide)

end RequestFile

end TypeExpr
