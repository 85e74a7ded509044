import Mathlib.Data.List.Basic
import TypeExpr.LocatedError
import TypeExpr.Proofs.Json.Numeral
import TypeExpr.Proofs.Text.Parts

/-!
# The layout of a report

The report of an error always says what is wrong and where. The line of the source comes under it
if its number is known, if it is there, and if there is anything on it, and then it is three rows
with a bar in each.

| part | what has to be settled | where |
|---|---|---|
| the location | that a request is never taken for a line | `LocatedError.location_eq_iff` |
| the quoted line | which part of it is shown | `Text.isCore_iff` |
| the rows | that the bars stand below each other | `LocatedError.barColumn_of_mem` |

The number of a line is written in digits, and no digit is a comma or a bar. That is all there is to
the first and to the last: the line ends in a location where the comma of the request begins, and the
first bar of a row is the one behind the number, or behind as many blanks.
-/

namespace TypeExpr

/-! ### Numbers in digits -/

theorem toString_nat_inj {m n : Nat} : toString m = toString n ↔ m = n := by
  refine ⟨fun h => ?_, fun h => congrArg toString h⟩
  rw [Nat.toString_eq_ofList_toDigits, Nat.toString_eq_ofList_toDigits, String.ofList_inj] at h
  calc
    m = Nat.ofDigitChars 10 (Nat.toDigits 10 m) 0 := Nat.ofDigitChars_ten_toDigits.symm
    _ = Nat.ofDigitChars 10 (Nat.toDigits 10 n) 0 := by rw [h]
    _ = n := Nat.ofDigitChars_ten_toDigits

/-- What is no digit does not occur in a number. -/
theorem notMem_toString_nat {c : Char} (hc : c.isDigit = false) (n : Nat) :
    c ∉ (toString n).toList := by
  rw [Nat.toString_eq_ofList_toDigits, String.toList_ofList]
  intro hmem
  rw [Json.Numeral.isDigit_toDigits n c hmem] at hc
  cases hc

namespace LocatedError

/-! ### Locations -/

/-- What a location says of the line. -/
def lineMark (line : Option Nat) : String :=
  line.elim "" fun n => ":" ++ toString n

/-- What a location says of the request. -/
def requestMark (request : Option Nat) : String :=
  request.elim "" fun n => ", request #" ++ toString n

theorem location_eq (error : LocatedError) :
    error.location = error.file ++ lineMark error.line ++ requestMark error.request := by
  obtain ⟨_, _, _, line, request, _⟩ := error
  cases line <;> cases request <;> rfl

/-- A mark in front of a number, if there is a number, tells which number it is. -/
theorem elim_mark_inj {mark : String} (hmark : mark ≠ "") {m n : Option Nat} :
    (m.elim "" fun n => mark ++ toString n) = (n.elim "" fun n => mark ++ toString n) ↔ m = n := by
  have hne (n : Nat) : mark ++ toString n ≠ "" :=
    fun h => hmark (String.append_eq_empty_iff.mp h).1
  cases m with
  | none =>
    cases n with
    | none => exact iff_of_true rfl rfl
    | some n => exact iff_of_false (hne n).symm (by simp)
  | some m =>
    cases n with
    | none => exact iff_of_false (hne m) (by simp)
    | some n =>
      simp only [Option.elim_some, String.append_right_inj, toString_nat_inj, Option.some_inj]

theorem lineMark_inj {line other : Option Nat} : lineMark line = lineMark other ↔ line = other :=
  elim_mark_inj (by decide)

theorem requestMark_inj {request other : Option Nat} :
    requestMark request = requestMark other ↔ request = other :=
  elim_mark_inj (by decide)

/-- There is no comma in what is said of the line. -/
theorem notMem_lineMark (line : Option Nat) : ',' ∉ (lineMark line).toList := by
  cases line with
  | none => simp [lineMark]
  | some n =>
    have hdigits := notMem_toString_nat (c := ',') rfl n
    simpa [lineMark] using hdigits

/-- What is said of the request begins with one. -/
theorem head?_requestMark (request : Option Nat) :
    ∀ c ∈ (requestMark request).toList.head?, c = ',' := by
  cases request with
  | none => simp [requestMark]
  | some n => simp [requestMark]

/-- **In one file, different places have different locations**, whether they are known by their
line, by their request, by both or by neither. -/
theorem location_eq_iff {error other : LocatedError} (hfile : other.file = error.file) :
    other.location = error.location ↔ other.line = error.line ∧ other.request = error.request := by
  rw [location_eq, location_eq, hfile, String.append_assoc, String.append_assoc,
    String.append_right_inj]
  constructor
  · intro h
    have hmarks := congrArg String.toList h
    rw [String.toList_append, String.toList_append] at hmarks
    obtain ⟨hline, hrequest⟩ := Text.append_inj_of_stops (· = ',')
      (fun c hc hcomma => notMem_lineMark other.line (hcomma ▸ hc))
      (fun c hc hcomma => notMem_lineMark error.line (hcomma ▸ hc))
      (head?_requestMark _) (head?_requestMark _) hmarks
    exact ⟨lineMark_inj.mp (String.toList_inj.mp hline),
      requestMark_inj.mp (String.toList_inj.mp hrequest)⟩
  · rintro ⟨hline, hrequest⟩
    rw [hline, hrequest]

/-! ### Excerpts -/

/-- As many blanks as a line number has digits. -/
def gutter (line : Nat) : String :=
  String.ofList (List.replicate (toString line).length ' ')

/-- **The rows of an excerpt**: the line with its number, between two rows without text. -/
def rows (line : Nat) (text : String) : List String :=
  [gutter line ++ " |", toString line ++ " |   " ++ text, gutter line ++ " |"]

/-- The column of the first bar of a row, counted from zero. -/
def barColumn (row : String) : Nat :=
  row.toList.idxOf '|'

theorem excerpt_eq_join (line : Nat) (text : String) :
    excerpt line text = String.join ((rows line text).map (· ++ "\n")) := by
  have hlength : (toString line).length = (Nat.toDigits 10 line).length := by
    rw [Nat.toString_eq_ofList_toDigits, String.length_ofList]
  simp only [excerpt, rows, gutter, hlength, List.map_cons, List.map_nil, String.join_cons,
    String.join_nil, String.append_assoc]
  rfl

/-- A bar behind a blank, with no bar in front of it. -/
theorem barColumn_append {front : String} (hfront : '|' ∉ front.toList) (rest : String) :
    barColumn (front ++ " |" ++ rest) = front.length + 1 := by
  rw [barColumn, String.toList_append, String.toList_append, List.append_assoc,
    List.idxOf_append_of_notMem hfront]
  rfl

/-- **The bars of an excerpt stand in one column**, one blank behind the number of the line. -/
theorem barColumn_of_mem {line : Nat} {text row : String} (h : row ∈ rows line text) :
    barColumn row = (toString line).length + 1 := by
  have hgutter : barColumn (gutter line ++ " |") = (toString line).length + 1 := by
    have hnone : '|' ∉ (gutter line).toList := by simp [gutter]
    have hcolumn := barColumn_append hnone ""
    rwa [String.append_empty, gutter, String.length_ofList, List.length_replicate] at hcolumn
  have hnumber : barColumn (toString line ++ " |   " ++ text) = (toString line).length + 1 := by
    have hbar : " |   " = " |" ++ "   " := by decide
    rw [hbar, ← String.append_assoc, String.append_assoc]
    exact barColumn_append (notMem_toString_nat rfl line) _
  simp only [rows, List.mem_cons, List.not_mem_nil, or_false] at h
  rcases h with rfl | rfl | rfl
  · exact hgutter
  · exact hnumber
  · exact hgutter

/-! ### Reports -/

section Reports

variable {error : LocatedError} {line : Nat} {source : String}

theorem report_eq_append (error : LocatedError) :
    error.report = error.category.text ++ ": " ++ error.message ++ "\n  --> " ++ error.location ++
      "\n" ++ error.shownSource :=
  rfl

/-- **A source line with a core is quoted**, and its core is what is quoted of it. -/
theorem shownSource_of_isCore {text : String} (hline : error.line = some line)
    (hsource : error.sourceLine = some source) (h : Text.IsCore source.toList text.toList) :
    error.shownSource = excerpt line text := by
  have htext : text ≠ "" := by
    rintro rfl
    obtain ⟨c, hc, -⟩ := h.first
    cases hc
  obtain ⟨-, rfl⟩ := Text.isCore_iff.mp h
  rw [shownSource, hline, hsource]
  exact if_neg htext

/-- **Nothing is quoted** if the line is not known, is not there or is blank. -/
theorem shownSource_eq_empty (h : ∀ line source, error.line = some line →
    error.sourceLine = some source → ∀ c ∈ source.toList, Text.isBlank c = true) :
    error.shownSource = "" := by
  rw [shownSource]
  split
  · rename_i line text hline htext
    obtain ⟨source, hsource, rfl⟩ := Option.map_eq_some_iff.mp htext
    exact if_pos (Text.trim_eq_empty (h line source hline hsource))
  · rfl

end Reports

/-- **The layout of a report.** It says what is wrong, and on the next line where. If the error has a
line number and a source line, and there is anything but white space on the source line, then the
source line has one core, and the report ends with three rows: the number and the core, between two
rows with as many blanks as the number has digits. In all other cases it ends with the location. The
bars of the rows stand in the same column. The location is the file with what is known of the line
and of the request, and in one file no two places have the same location. -/
theorem report_layout (error : LocatedError) :
    (∀ line source, error.line = some line → error.sourceLine = some source →
      (∃ c ∈ source.toList, Text.isBlank c = false) →
      ∃ text, (∀ other : String, Text.IsCore source.toList other.toList ↔ other = text) ∧
        error.report = error.category.text ++ ": " ++ error.message ++ "\n  --> " ++
          error.location ++ "\n" ++ String.join ((rows line text).map (· ++ "\n"))) ∧
    ((∀ line source, error.line = some line → error.sourceLine = some source →
        ∀ c ∈ source.toList, Text.isBlank c = true) →
      error.report = error.category.text ++ ": " ++ error.message ++ "\n  --> " ++
        error.location ++ "\n") ∧
    (∀ line text, ∀ row ∈ rows line text, barColumn row = (toString line).length + 1) ∧
    error.location = error.file ++ (error.line.elim "" fun line => ":" ++ toString line) ++
      (error.request.elim "" fun request => ", request #" ++ toString request) ∧
    ∀ other : LocatedError, other.file = error.file →
      (other.location = error.location ↔ other.line = error.line ∧ other.request = error.request) := by
  refine ⟨fun line source hline hsource hblank => ?_, fun hblank => ?_,
    fun _ _ _ => barColumn_of_mem, error.location_eq, fun _ => location_eq_iff⟩
  · have hcore (other : String) : Text.IsCore source.toList other.toList ↔
        other = Text.trim source := by
      rw [Text.isCore_iff, and_iff_right hblank]
    refine ⟨Text.trim source, hcore, ?_⟩
    rw [report_eq_append, shownSource_of_isCore hline hsource ((hcore _).mpr rfl),
      excerpt_eq_join]
  · rw [report_eq_append, shownSource_eq_empty hblank, String.append_empty]

/-- A line with white space at its ends and a number of two digits, the same line blank, and a request
with the number of the line. -/
theorem report_layout_two_digits :
    ∃ error blank : LocatedError, error.line = some 12 ∧
      error.sourceLine = some "\tf: Callable[int]\u00a0 " ∧
      error.report = "TypeError: no list\n  --> a.pyi:12\n   |\n12 |   f: Callable[int]\n   |\n" ∧
      blank.sourceLine = some "\t\u00a0 " ∧ blank.report = "TypeError: no list\n  --> a.pyi:12\n" ∧
      (error.forRequest 12).location ≠ error.location := by
  have hlayout (sourceLine : String) :=
    report_layout ⟨.typeError, "no list", "a.pyi", some 12, none, some sourceLine⟩
  obtain ⟨hquoted, -, -, -, hlocation⟩ := hlayout "\tf: Callable[int]\u00a0 "
  obtain ⟨text, htext, hreport⟩ := hquoted _ _ rfl rfl ⟨'f', by decide, by decide⟩
  obtain rfl := (htext "f: Callable[int]").mp
    ⟨⟨'f', by decide, by decide⟩, ⟨']', by decide, by decide⟩, ['\t'], ['\u00a0', ' '], by decide,
      List.all_eq_true.mp (by decide), List.all_eq_true.mp (by decide)⟩
  refine ⟨_, _, rfl, rfl, hreport.trans ?_, rfl, ((hlayout "\t\u00a0 ").2.1 ?_).trans ?_,
    fun h => ?_⟩
  · decide
  · rintro _ _ - ⟨⟩
    exact List.all_eq_true.mp (by decide)
  · decide
  · cases ((hlocation (forRequest _ 12) rfl).mp h).2

end LocatedError

end TypeExpr
