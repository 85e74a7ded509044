import TypeExpr.Proofs.FirstFault
import TypeExpr.Proofs.Rearranged
import TypeExpr.Proofs.Report

/-!
# From the numeral of a line to the report

The line that an entry gives is a numeral, and if the request is the first to fail, a number comes
out again in the report. In between it is a natural number of 64 bits. Nothing of the numeral is lost
on the way, because the reader takes no numeral that could lose anything: it must be written in
digits alone, and in front of other digits there is no zero in JSON.

| the numeral | the file |
|---|---|
| digits, of a number that fits in 64 bits | is accepted, and the report repeats the digits |
| digits, of a greater number | is refused for its shape |
| with a sign, a fraction or an exponent | is refused for its shape, whatever its value |
| out of the range of the reader | is no JSON text to the reader |

What is said of the numeral is said of the characters in the file. So the first part of this file is
about a place in a tree and the place in the text that belongs to it: the text is what is in front,
a text for the place, and what is behind, and what is in front and behind goes with any other text
for the place (`Json.Frames`).

The second part is about a file that is legal but for the numeral. With `null` in its place the file
denotes entries, and with anything else there they are the same except for the line.
-/

namespace TypeExpr

open Json (Draft Says Token under)

/-! ### Places in a text -/

namespace Json

/-- **A place in a tree**: the tokens of what stands there are between others that do not depend on
it. -/
def IsPlace (place : Json → Json) : Prop :=
  ∃ ts us, ∀ value, (place value).tokens = ts ++ (value.tokens ++ us)

/-- **What is in front of a place and behind it** in a text: any text for the place may stand in
between. -/
def Frames (front back : String) (place : Json → Json) : Prop :=
  ∀ text value, Says text value → Says (front ++ text ++ back) (place value)

theorem IsPlace.comp {outer inner : Json → Json} (h : IsPlace outer) (h' : IsPlace inner) :
    IsPlace fun value => outer (inner value) := by
  obtain ⟨ts, us, houter⟩ := h
  obtain ⟨ts', us', hinner⟩ := h'
  refine ⟨ts ++ ts', us' ++ us, fun value => ?_⟩
  simp only [houter, hinner, List.append_assoc]

theorem isPlace_item (before after : List Json) :
    IsPlace fun value => array (before ++ value :: after) := by
  have hitems (rest : List Json) :
      ∃ ts us, ∀ value, itemTokens (rest ++ value :: after) = ts ++ (value.tokens ++ us) := by
    induction rest with
    | nil => exact ⟨[.comma], itemTokens after, fun _ => rfl⟩
    | cons item rest ih =>
      obtain ⟨ts, us, h⟩ := ih
      refine ⟨.comma :: (item.tokens ++ ts), us, fun value => ?_⟩
      simp only [List.cons_append, itemTokens, h, List.append_assoc]
  cases before with
  | nil => exact ⟨[.openArray], itemTokens after, fun _ => rfl⟩
  | cons item before =>
    obtain ⟨ts, us, h⟩ := hitems before
    refine ⟨.openArray :: (item.tokens ++ ts), us, fun value => ?_⟩
    simp only [List.cons_append, tokens, h, List.append_assoc]

theorem isPlace_member (members others : List (String × Json)) (key : String) :
    IsPlace fun value => object (members ++ (key, value) :: others) := by
  have hmembers (rest : List (String × Json)) : ∃ ts us, ∀ value,
      memberTokens (rest ++ (key, value) :: others) = ts ++ (value.tokens ++ us) := by
    induction rest with
    | nil => exact ⟨[.comma, .text key, .colon], memberTokens others, fun _ => rfl⟩
    | cons member rest ih =>
      obtain ⟨ts, us, h⟩ := ih
      refine ⟨.comma :: .text member.1 :: .colon :: (member.2.tokens ++ ts), us, fun value => ?_⟩
      simp only [List.cons_append, memberTokens, h, List.append_assoc]
  cases members with
  | nil => exact ⟨[.openObject, .text key, .colon], memberTokens others, fun _ => rfl⟩
  | cons member members =>
    obtain ⟨ts, us, h⟩ := hmembers members
    refine ⟨.openObject :: .text member.1 :: .colon :: (member.2.tokens ++ ts), us, fun value => ?_⟩
    simp only [List.cons_append, tokens, h, List.append_assoc]

/-- A spelling of a numeral is a text of it. -/
theorem says_numeral {literal : String} {n : Numeral} (h : Numeral.Spells literal.toList n) :
    Says literal (numeral n) := by
  have hblank : ∀ c ∈ ([] : List Char), Token.isBlank c = true := fun _ hc => absurd hc List.not_mem_nil
  have hrow := Token.SpellsRow.cons hblank (.numeral h) (.nil hblank)
  rwa [List.nil_append, List.append_nil] at hrow

/-- **A numeral in a tree has its characters in the text**, between what is in front of its place
and what is behind it. -/
theorem IsPlace.exists_frames {place : Json → Json} (h : IsPlace place) {source : String}
    {n : Numeral} (hsource : Says source (place (numeral n))) :
    ∃ front literal back, source = front ++ literal ++ back ∧ Frames front back place ∧
      Numeral.Spells literal.toList n := by
  obtain ⟨ts, us, hplace⟩ := h
  rw [Says, hplace] at hsource
  obtain ⟨ds, es, hsplit, hds, hes⟩ := hsource.exists_append
  obtain _ | ⟨hblanks, hspells, hback⟩ := hes
  rename_i blanks cs rest
  refine ⟨String.ofList (ds ++ blanks), String.ofList cs, String.ofList rest, ?_,
    fun text value htext => ?_, ?_⟩
  · rw [← String.toList_inj]
    simp [hsplit]
  · -- the blanks in front of the numeral stay in front of the place
    have hrow := ((hds.append (.nil hblanks)).append htext).append hback
    rw [Says, hplace]
    simpa using hrow
  · rw [String.toList_ofList]
    cases hspells with
    | fixed hfixed => cases hfixed
    | numeral hcs => exact hcs

end Json

/-! ### The line among the members of an entry -/

namespace Entry

section Row

variable {members others row : List (String × Json)}

/-- What stands under the keys, if there is a line between members that give none. -/
theorem under_line {value : Json} (hmembers : under "line" members = [])
    (hothers : under "line" others = []) :
    under "line" (members ++ ("line", value) :: others) = [value] := by
  rw [Json.under_around, hmembers, hothers, if_pos rfl]
  rfl

theorem under_of_ne_line {value : Json} {key : String} (hkey : key ≠ "line") :
    under key (members ++ ("line", value) :: others) = under key (members ++ others) := by
  rw [Json.under_around, if_neg hkey.symm, List.append_nil, Json.under_append]

/-- Members around the line of an entry give no line themselves. -/
theorem Denotes.under_eq_nil {entry : Entry} {value : Json}
    (h : Denotes (.object (members ++ ("line", value) :: others)) entry) :
    under "line" members = [] ∧ under "line" others = [] := by
  obtain ⟨-, -, -, hline⟩ := h
  rw [Json.under_around, if_pos rfl] at hline
  rcases lineDenotes_iff.mp hline with ⟨hnil, -⟩ | ⟨content, hcontent, -⟩
  · simp at hnil
  · have hparts : under "line" members = [] ∧ value = content ∧ under "line" others = [] := by
      simpa [List.append_eq_singleton_iff] using hcontent
    exact ⟨hparts.1, hparts.2.2⟩

/-- **With another line the request is the same.** What stands under all other keys decides about
it. -/
theorem Denotes.iff_of_null {entry other : Entry}
    (h : Denotes (.object (members ++ ("line", .null) :: others)) entry)
    (hrow : ∀ key, key ≠ "line" → under key row = under key (members ++ others)) :
    Denotes (.object row) other ↔
      other.request = entry.request ∧ LineDenotes (under "line" row) other.line := by
  obtain ⟨hmembers, hothers⟩ := h.under_eq_nil
  have hunder (key : String) (hkey : key ≠ "line") :
      under key row = under key (members ++ ("line", .null) :: others) :=
    (hrow key hkey).trans (under_of_ne_line hkey).symm
  have hsame (request : Request) :
      (∃ operation, under "op" row = [operation] ∧ request.op.Denotes operation) ∧
        request.Denotes row ↔
        Denotes (.object (members ++ ("line", .null) :: others)) ⟨request, none⟩ := by
    rw [denotes_object_iff, under_line hmembers hothers, and_iff_left LineDenotes.null,
      hunder "op" (by decide)]
    refine and_congr_right fun _ => Request.denotes_iff_of_agreeUnder fun key hkey => ?_
    exact Json.agreeUnder_of_eq (hunder key fun heq => request.op.notMem_fieldKeys.2 (heq ▸ hkey))
  have hnull : Denotes (.object (members ++ ("line", .null) :: others)) ⟨entry.request, none⟩ := by
    obtain ⟨hop, hrequest, -⟩ := denotes_object_iff.mp h
    refine denotes_object_iff.mpr ⟨hop, hrequest, ?_⟩
    rw [under_line hmembers hothers]
    exact .null
  rw [denotes_object_iff, ← and_assoc, hsame]
  refine and_congr_left fun _ => ⟨fun hdenotes => ?_, fun hrequest => ?_⟩
  · have heq := hdenotes.unique hnull
    exact congrArg (fun entry => entry.request) heq
  · rw [hrequest]
    exact hnull

end Row

end Entry

/-! ### The line among the entries of a file -/

namespace RequestFile

section Trees

variable (before after : List Json) (members others : List (String × Json))

/-- The tree of a file with a value in the place of the line of one of its entries. -/
def withLine (value : Json) : Json :=
  .array (before ++ .object (members ++ ("line", value) :: others) :: after)

/-- The tree of the file without that line. -/
def withoutLine : Json :=
  .array (before ++ .object (members ++ others) :: after)

/-- **A file is legal but for the line** of one entry: with `null` in its place the tree is within
the limits and its items denote entries. -/
structure LegalAround : Prop where
  admissible : (withLine before after members others .null).Admissible Json.nestingLimit
  denotes : ∀ item ∈ before ++ .object (members ++ ("line", .null) :: others) :: after,
    ∃ entry, Entry.Denotes item entry

theorem isPlace_withLine : Json.IsPlace (withLine before after members others) :=
  (Json.isPlace_item before after).comp (Json.isPlace_member members others "line")

end Trees

variable {before after : List Json} {members others : List (String × Json)}

theorem admissible_withLine_iff {value : Json} :
    (withLine before after members others value).Admissible Json.nestingLimit ↔
      (withoutLine before after members others).Admissible Json.nestingLimit ∧
        value.Admissible 125 := by
  change (Json.array _).Admissible (125 + 1 + 1) ↔ (Json.array _).Admissible (125 + 1 + 1) ∧ _
  simp only [Json.admissible_array_iff, List.forall_mem_append, List.forall_mem_cons,
    Json.admissible_object_iff]
  tauto

namespace LegalAround

variable (h : LegalAround before after members others)

include h

theorem admissible_withoutLine :
    (withoutLine before after members others).Admissible Json.nestingLimit :=
  (admissible_withLine_iff.mp h.admissible).1

theorem admissible_numeral {n : Json.Numeral} (hn : n.inRange = true) :
    (withLine before after members others (.numeral n)).Admissible Json.nestingLimit :=
  admissible_withLine_iff.mpr ⟨h.admissible_withoutLine, hn, Nat.zero_le _⟩

theorem exists_denotes_null :
    ∃ entry, Entry.Denotes (.object (members ++ ("line", .null) :: others)) entry :=
  h.denotes _ (List.mem_append_right _ List.mem_cons_self)

/-- **The entries of the file** are the same whatever stands in the place of the line, except for
the line itself. -/
theorem exists_entries :
    ∃ earlier request later, earlier.length = before.length ∧
      ∀ row, (∀ key, key ≠ "line" → under key row = under key (members ++ others)) →
        ∀ entries, List.Forall₂ Entry.Denotes (before ++ .object row :: after) entries ↔
          ∃ line, Entry.LineDenotes (under "line" row) line ∧
            entries = earlier ++ ⟨request, line⟩ :: later := by
  obtain ⟨entries, hentries⟩ := exists_forall₂_iff.mpr h.denotes
  obtain ⟨earlier, entry, later, -, hearlier, hentry, hlater⟩ := forall₂_around_iff.mp hentries
  have hunique : Relator.RightUnique Entry.Denotes := fun _ _ _ => Entry.Denotes.unique
  refine ⟨earlier, entry.request, later, hearlier.length_eq.symm, fun row hrow entries => ?_⟩
  rw [forall₂_around_iff]
  constructor
  · rintro ⟨us, other, vs, rfl, hus, hother, hvs⟩
    obtain rfl := List.right_unique_forall₂' hunique hus hearlier
    obtain rfl := List.right_unique_forall₂' hunique hvs hlater
    obtain ⟨hrequest, hline⟩ := (hentry.iff_of_null hrow).mp hother
    refine ⟨other.line, hline, ?_⟩
    rw [← hrequest]
  · rintro ⟨line, hline, rfl⟩
    exact ⟨earlier, _, later, rfl, hearlier, (hentry.iff_of_null hrow).mpr ⟨rfl, hline⟩, hlater⟩

/-- What stands under the key of the line: the value that was put there, or nothing. -/
theorem under_line (value : Json) :
    under "line" (members ++ ("line", value) :: others) = [value] ∧
      under "line" (members ++ others) = [] := by
  obtain ⟨entry, hentry⟩ := h.exists_denotes_null
  obtain ⟨hmembers, hothers⟩ := hentry.under_eq_nil
  refine ⟨Entry.under_line hmembers hothers, ?_⟩
  rw [Json.under_append, hmembers, hothers]
  rfl

section Row

variable {row : List (String × Json)} {path source : String}
  (hsource : Says source (.array (before ++ .object row :: after)))
  (hlimit : (Json.array (before ++ .object row :: after)).Admissible Json.nestingLimit)

include hsource hlimit

/-- **If the line is not accepted, the file is refused** for its shape. -/
theorem refuses (hline : ¬∃ line, Entry.LineDenotes (under "line" row) line) (path : String) :
    Refuses path source .misshapen := by
  refine refuses_of_readEntries ?_ path
  have htake : Entry.takeLine none (Json.memberDrafts row) = .error .misshapen := by
    cases htake : Entry.takeLine none (Json.memberDrafts row) with
    | error error =>
      rcases Entry.eq_of_takeLine_eq_error htake with rfl | rfl
      · exact absurd htake (Entry.unbroken_takeLine row none)
      · rfl
    | ok got =>
      obtain ⟨hawaits, -⟩ := Entry.takeLine_eq_ok_iff.mp htake
      exact absurd ⟨_, Entry.hasLine_memberDrafts_iff.mp hawaits⟩ hline
  have hitem : Entry.ofDraft (Json.object row).draft = .error .misshapen := by
    rw [Json.draft, Entry.ofDraft, htake]
    rfl
  -- the entries in front are decoded before
  obtain ⟨entries, hentries⟩ := exists_forall₂_iff.mpr h.denotes
  obtain ⟨earlier, -, -, -, hearlier, -⟩ := forall₂_around_iff.mp hentries
  have hbefore : List.Forall₂ (fun d entry => Entry.ofDraft d = .ok entry)
      (before.map Json.draft) earlier :=
    List.forall₂_map_left_iff.mpr (hearlier.imp fun _ _ hdenotes =>
      Entry.ofDraft_eq_ok_iff.mpr (Entry.spells_draft_iff.mpr hdenotes))
  rw [readEntries, decodeStored_eq_decode hsource hlimit, Json.draft, Json.Draft.asList,
    Json.drafts_eq_map, List.map_append, List.map_cons, mapM_append_eq_error hbefore hitem]
  rfl

variable (hrow : ∀ key, key ≠ "line" → under key row = under key (members ++ others))

include hrow

/-- The file is accepted if the line is. -/
theorem exists_file_iff :
    (∃ file, (parse path source).value = .ok file) ↔
      ∃ line, Entry.LineDenotes (under "line" row) line := by
  obtain ⟨earlier, request, later, -, hentries⟩ := h.exists_entries
  constructor
  · rintro ⟨file, hfile⟩
    obtain ⟨-, -, hread⟩ := parse_eq_ok_iff.mp hfile
    rw [readEntries_eq_ok_iff_forall₂ hsource hlimit, hentries row hrow] at hread
    obtain ⟨line, hline, -⟩ := hread
    exact ⟨line, hline⟩
  · rintro ⟨line, hline⟩
    have hread := (hentries row hrow _).mpr ⟨line, hline, rfl⟩
    rw [← readEntries_eq_ok_iff_forall₂ hsource hlimit] at hread
    exact ⟨_, parse_of_readEntries hread path⟩

/-- The entry in question has the line that it gives. -/
theorem lineDenotes_of_parse {file : RequestFile} (hfile : (parse path source).value = .ok file)
    {entry : Entry} (hentry : file.entries[before.length]? = some entry) :
    Entry.LineDenotes (under "line" row) entry.line := by
  obtain ⟨earlier, request, later, hlength, hentries⟩ := h.exists_entries
  obtain ⟨-, -, hread⟩ := parse_eq_ok_iff.mp hfile
  rw [readEntries_eq_ok_iff_forall₂ hsource hlimit, hentries row hrow] at hread
  obtain ⟨line, hline, hsplit⟩ := hread
  rw [hsplit, ← hlength, List.getElem?_append_right (Nat.le_refl _), Nat.sub_self] at hentry
  obtain rfl := Option.some.inj hentry
  exact hline

end Row

end LegalAround

/-! ### The report -/

/-- **The evaluation of a file ends with the report of an error**, and in the report this is the line
that says where the error arose. -/
def Reports (file : RequestFile) (error : CallableError) (location : String) : Prop :=
  ∃ trouble excerpt, file.evaluate.value = .error (.trouble trouble) ∧
    ∀ asked, trouble.report asked =
      error.category.text ++ ": " ++ error.message ++ "\n" ++ location ++ "\n" ++ excerpt

theorem FailsAt.reports {file : RequestFile} {k : Nat} {entry : Entry} {error : CallableError}
    (h : file.FailsAt k entry (.rejected error)) :
    file.Reports error ("  --> " ++ file.path ++ (entry.line.elim "" fun line => ":" ++ toString line)
      ++ ", request #" ++ toString (k + 1)) := by
  refine ⟨_, (file.locate k entry error).shownSource, h.evaluate_eq.1, fun asked => ?_⟩
  change (file.locate k entry error).report = _
  have hlocation : (file.locate k entry error).location = file.path ++
      (entry.line.elim "" fun line => ":" ++ toString line) ++ ", request #" ++ toString (k + 1) :=
    (LocatedError.location_eq _).trans String.append_assoc.symm
  have hmark : "\n  --> " = "\n" ++ "  --> " := rfl
  have htext : (file.locate k entry error).text = error.category.text ++ ": " ++ error.message := rfl
  simp only [LocatedError.report, hlocation, hmark, htext, String.append_assoc]

/-! ### From the file to the report -/

theorem exists_lineDenotes_numeral_iff {n : Json.Numeral} {literal : String}
    (h : n.Spells literal.toList) :
    (∃ line, Entry.LineDenotes [.numeral n] line) ↔
      (∀ c ∈ literal.toList, c.isDigit = true) ∧
        Nat.ofDigitChars 10 literal.toList 0 < lineLimit := by
  constructor
  · rintro ⟨_, _ | _ | ⟨hv, hlt⟩⟩
    obtain ⟨hdigits, rfl⟩ := h.natural?_eq_some_iff.mp hv
    exact ⟨hdigits, hlt⟩
  · rintro ⟨hdigits, hlt⟩
    exact ⟨_, .number (h.natural?_eq_some_iff.mpr ⟨hdigits, rfl⟩) hlt⟩

namespace LegalAround

variable (h : LegalAround before after members others) {path source : String}

include h

/-- **A literal that is accepted** comes out of the report again. -/
theorem reports_of_literal {n : Json.Numeral} {literal : String} (hliteral : n.Spells literal.toList)
    (hn : n.inRange = true) (hsource : Says source (withLine before after members others (.numeral n)))
    {file : RequestFile} (hfile : (parse path source).value = .ok file) {entry : Entry}
    {error : CallableError} (hfails : file.FailsAt before.length entry (.rejected error)) :
    file.Reports error ("  --> " ++ path ++ ":" ++ literal ++ ", request #" ++
      toString (before.length + 1)) := by
  have hline := h.lineDenotes_of_parse hsource (h.admissible_numeral hn)
    (fun _ => Entry.under_of_ne_line) hfile hfails.entry_eq
  have hreports := hfails.reports
  rw [(h.under_line _).1] at hline
  generalize entry.line = line at hline hreports
  obtain _ | _ | ⟨hv, -⟩ := hline
  rw [(parse_eq_ok_iff.mp hfile).1] at hreports
  -- the digits that are written are the literal
  simpa only [Option.elim_some, Nat.toString_eq_ofList_toDigits,
    (hliteral.spellsWhole hv).toDigits_eq, String.ofList_toList, String.append_assoc] using hreports

/-- **Without a line** the file is accepted, and the report names the request alone. -/
theorem exists_file_of_noLine {row : List (String × Json)}
    (hrow : ∀ key, key ≠ "line" → under key row = under key (members ++ others))
    (hline : ∀ line, Entry.LineDenotes (under "line" row) line ↔ line = none)
    (hsource : Says source (.array (before ++ .object row :: after)))
    (hlimit : (Json.array (before ++ .object row :: after)).Admissible Json.nestingLimit) :
    ∃ file, (parse path source).value = .ok file ∧
      ∀ entry error, file.FailsAt before.length entry (.rejected error) →
        file.Reports error ("  --> " ++ path ++ ", request #" ++ toString (before.length + 1)) := by
  obtain ⟨file, hfile⟩ := (h.exists_file_iff hsource hlimit hrow).mpr ⟨none, (hline none).mpr rfl⟩
  refine ⟨file, hfile, fun entry error hfails => ?_⟩
  have hnone := (hline _).mp (h.lineDenotes_of_parse hsource hlimit hrow hfile hfails.entry_eq)
  have hreports := hfails.reports
  rw [hnone, (parse_eq_ok_iff.mp hfile).1] at hreports
  simpa only [Option.elim_none, String.append_empty] using hreports

end LegalAround

/-- The file of one written request is legal but for its line. -/
theorem legalAround_members {request : Request} (hsound : ∀ node ∈ request.nodes, node.Sound)
    (hlimit : (withLine [] [] request.members [] .null).Admissible Json.nestingLimit) :
    LegalAround [] [] request.members [] := by
  have hentry : Entry.Spells (Entry.toJson ⟨request, none⟩).draft ⟨request, none⟩ :=
    Entry.spells_draft hsound (by simp)
  exact ⟨hlimit, List.forall_mem_singleton.mpr ⟨_, Entry.spells_draft_iff.mp hentry⟩⟩

/-- **A line goes from the file to the report as it is written.** Let a file be legal but for the
line of one entry, and let there be a numeral for the line, in the range of the reader. Any text of
the file has the characters of a literal of the numeral between what is in front of the line and
what is behind it. The file is accepted if and only if the literal consists of digits and its value
fits in 64 bits, and if not, it is refused for its shape. If the request of this entry is the first
that fails, and is rejected, then the report names the path, the literal and the number of the
request. With `null` in the place of the line, or without a line, the file is accepted, and the
report names the path and the number of the request. -/
theorem report_of_line (h : LegalAround before after members others) {n : Json.Numeral}
    (hn : n.inRange = true) (path : String) :
    (∀ source, Says source (withLine before after members others (.numeral n)) →
      ∃ front literal back, source = front ++ literal ++ back ∧
        Json.Frames front back (withLine before after members others) ∧
        n.Spells literal.toList) ∧
    (∀ front literal back, Json.Frames front back (withLine before after members others) →
      n.Spells literal.toList →
      ((∃ file, (parse path (front ++ literal ++ back)).value = .ok file) ↔
        (∀ c ∈ literal.toList, c.isDigit = true) ∧
          Nat.ofDigitChars 10 literal.toList 0 < lineLimit) ∧
      ((¬∃ file, (parse path (front ++ literal ++ back)).value = .ok file) →
        Refuses path (front ++ literal ++ back) .misshapen) ∧
      ∀ file entry error, (parse path (front ++ literal ++ back)).value = .ok file →
        file.FailsAt before.length entry (.rejected error) →
        file.Reports error ("  --> " ++ path ++ ":" ++ literal ++ ", request #" ++
          toString (before.length + 1))) ∧
    ∀ source, Says source (withLine before after members others .null) ∨
        Says source (withoutLine before after members others) →
      ∃ file, (parse path source).value = .ok file ∧
        ∀ entry error, file.FailsAt before.length entry (.rejected error) →
          file.Reports error ("  --> " ++ path ++ ", request #" ++
            toString (before.length + 1)) := by
  refine ⟨fun source hsource => (isPlace_withLine _ _ _ _).exists_frames hsource, ?_, ?_⟩
  · intro front literal back hframes hliteral
    have hsource := hframes literal _ (Json.says_numeral hliteral)
    have hlimit := h.admissible_numeral hn
    have haccepted : (∃ file, (parse path (front ++ literal ++ back)).value = .ok file) ↔ _ :=
      h.exists_file_iff hsource hlimit fun _ => Entry.under_of_ne_line
    refine ⟨?_, fun hnot => ?_, fun file entry error hfile hfails =>
      h.reports_of_literal hliteral hn hsource hfile hfails⟩
    · rw [haccepted, (h.under_line _).1, exists_lineDenotes_numeral_iff hliteral]
    · exact h.refuses hsource hlimit (mt haccepted.mpr hnot) path
  · rintro source (hsource | hsource)
    · refine h.exists_file_of_noLine (fun _ => Entry.under_of_ne_line) (fun line => ?_) hsource
        h.admissible
      rw [(h.under_line .null).1]
      exact ⟨fun hline => by cases hline; rfl, fun hline => hline ▸ .null⟩
    · refine h.exists_file_of_noLine (fun _ _ => rfl) (fun line => ?_) hsource
        h.admissible_withoutLine
      rw [(h.under_line .null).2]
      exact ⟨fun hline => by cases hline; rfl, fun hline => hline ▸ .absent⟩

/-- The greatest number that fits, in the entry of a request with a parameter too many. -/
theorem report_of_line_greatest :
    ∃ source file, (parse "requests.json" source).value = .ok file ∧
      file.entries = [⟨.callable "Callable" [.args [], .type .nothing, .type .anything],
        some 18446744073709551615⟩] ∧
      file.Reports (.arity 3) "  --> requests.json:18446744073709551615, request #1" := by
  have hlegal : LegalAround [] [] (Request.callable "Callable"
      [.args [], .type .nothing, .type .anything]).members [] :=
    legalAround_members (by decide) ⟨by decide, by decide⟩
  have hread := @readEntries_compact [⟨.callable "Callable" [.args [], .type .nothing,
    .type .anything], some 18446744073709551615⟩] (by decide) (by decide) (by decide)
  have hn : (Json.Numeral.ofNat 18446744073709551615).inRange = true :=
    Json.Numeral.inRange_ofNat (by decide)
  obtain ⟨htexts, hfiles, -⟩ := report_of_line hlegal hn "requests.json"
  obtain ⟨front, literal, back, hsource, hframes, hliteral⟩ :=
    htexts _ (Json.says_compact _)
  obtain rfl : literal = "18446744073709551615" := by
    rw [← String.toList_inj, ← (hliteral.spellsWhole rfl).toDigits_eq]
    decide
  have hfile : (parse "requests.json" (front ++ "18446744073709551615" ++ back)).value =
      .ok ⟨"requests.json", _, _⟩ := parse_of_readEntries (hsource ▸ hread) _
  have hreports := (hfiles front _ back hframes hliteral).2.2 _ _ (.arity 3) hfile
    ⟨rfl, rfl, fun _ h => absurd h List.not_mem_nil⟩
  exact ⟨_, _, hfile, rfl, hreports⟩

/-- **A line that is finite but out of range.** The file is legal but for its line, and the line is a
numeral whose nearest double is the greatest there is. The file is not refused for its shape, as it
is for other numerals that do not fit: to the reader the text is malformed. -/
theorem finite_line_malformed :
    ∃ source members, source = "[\x7b\"op\":\"is_any\",\"value\":\"anything\"," ++
        "\"line\":17976931348623158e292\x7d]" ∧
      LegalAround [] [] members [] ∧
      Says source (withLine [] [] members [] (.numeral .nearest)) ∧
      Json.Numeral.nearest.IsFinite ∧
      ∀ path, Refuses path source .malformed ∧ ¬Refuses path source .misshapen := by
  have hlegal : LegalAround [] [] (Request.isAny .anything).members [] :=
    legalAround_members (by decide) ⟨by decide, by decide⟩
  have hsource : (withLine [] [] (Request.isAny .anything).members []
      (.numeral .nearest)).compact = "[\x7b\"op\":\"is_any\",\"value\":\"anything\"," ++
        "\"line\":17976931348623158e292\x7d]" := by
    decide +kernel
  have hread : readEntries ("[\x7b\"op\":\"is_any\",\"value\":\"anything\"," ++
      "\"line\":17976931348623158e292\x7d]") = .error .malformed := by
    decide +kernel
  refine ⟨_, _, rfl, hlegal, hsource ▸ Json.says_compact _, Json.Numeral.isFinite_nearest,
    fun path => ?_⟩
  have hrefuses := refuses_of_readEntries hread path
  refine ⟨hrefuses, fun hother => ?_⟩
  -- a file is refused with one error only
  cases hrefuses.1.symm.trans hother.1

end RequestFile

end TypeExpr
