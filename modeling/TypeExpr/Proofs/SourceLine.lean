import TypeExpr.Proofs.FirstFailure
import TypeExpr.Proofs.NormalForm

/-!
# The source line of an error

An error quotes the line of the file whose number its entry gives. The text of the file has one
decomposition into lines and what ends them (`Text.IsDecomposition`), and the line that is quoted is
found there: it is the one with the number, counted from one, as it is in the text.

The number zero names no line, and it would name none either if one were subtracted from it in
64 bits, unless there were more lines than 64 bits can count.
-/

namespace TypeExpr

/-! ### Numbered lines -/

/-- **Subtraction in 64 bits** leads to the same line. From zero it leads behind all lines. -/
theorem Text.line?_eq_getElem? {texts : List String} {n : Nat} (hn : n < lineLimit)
    (hcount : texts.length < lineLimit) : line? texts n = texts[(UInt64.ofNat n - 1).toNat]? := by
  cases n with
  | zero =>
    have hlast : (UInt64.ofNat 0 - 1).toNat = lineLimit - 1 := by decide
    rw [line?, hlast, List.getElem?_eq_none (Nat.le_sub_one_of_lt hcount)]
  | succ n =>
    have hindex : (UInt64.ofNat (n + 1) - 1).toNat = n := by
      have hsub : UInt64.ofNat (n + 1) - 1 = UInt64.ofNat n := by
        rw [UInt64.ofNat_add]
        exact UInt64.add_sub_cancel _ _
      rw [hsub]
      exact UInt64.toNat_ofNat_of_lt' (Nat.lt_of_succ_lt hn)
    rw [line?, hindex]

/-! ### Files -/

namespace RequestFile

/-- **The source line of an error** is the line of the file with the number that the entry gives.
Let the first request that fails be rejected, and let its entry give a line. The text of the file
has one decomposition into lines and what ends them. The error has no source line if and only if the
number is zero or greater than the number of lines. In all other cases it has the line with this
number, counted from one, as it is in the text. If 64 bits can count the lines, subtracting one from
the number in 64 bits leads to this line, and to none from zero. -/
theorem sourceLine_of_parse {path source : String} {file : RequestFile}
    (hfile : (parse path source).value = .ok file) {k : Nat} {entry : Entry}
    {error : CallableError} (hfails : file.FailsAt k entry (.rejected error)) {n : Nat}
    (hline : entry.line = some n) :
    ∃ pieces located,
      (∀ others, Text.IsDecomposition source.toList others ↔ others = pieces) ∧
      file.evaluate.value = .error (.trouble (.ofCause (.located located))) ∧
      located.line = some n ∧
      (located.sourceLine = none ↔ n = 0 ∨ pieces.length < n) ∧
      (∀ piece, 0 < n → pieces[n - 1]? = some piece →
        located.sourceLine = some (String.ofList piece.line)) ∧
      (pieces.length < lineLimit → located.sourceLine =
        pieces[(UInt64.ofNat n - 1).toNat]?.map fun piece => String.ofList piece.line) := by
  obtain ⟨-, hlines, hread⟩ := parse_eq_ok_iff.mp hfile
  have hn : n < lineLimit := by
    obtain ⟨items, -, hitems⟩ := readEntries_eq_ok_iff.mp hread
    obtain ⟨item, -, hspells⟩ :=
      exists_of_mem_forall₂ hitems (List.mem_of_getElem? hfails.entry_eq)
    exact hspells.line_lt n hline
  have hsource : (file.locate k entry error).sourceLine =
      Text.line? ((Text.decompose source.toList).map fun piece => String.ofList piece.line) n := by
    rw [← Text.lines_eq_map, ← hlines]
    simp [locate, CallableError.located, LocatedError.forRequest, hline]
  refine ⟨Text.decompose source.toList, file.locate k entry error, fun _ => Text.isDecomposition_iff,
    hfails.evaluate_eq.1, hline, ?_, fun piece hpos hpiece => ?_, fun hcount => ?_⟩
  · rw [hsource, Text.line?_eq_none_iff, List.length_map]
  · rw [hsource, Text.line?_of_pos hpos, List.getElem?_map, hpiece]
    rfl
  · rw [hsource, Text.line?_eq_getElem? hn (by rwa [List.length_map]), List.getElem?_map]

/-- An error for an entry that gives the number zero, and one for an entry that gives the line it is
on. -/
theorem sourceLine_of_parse_zero_two :
    (∃ source file located, (parse "requests.json" source).value = .ok file ∧
      file.entries = [⟨.callable "Callable" [.args [], .type .nothing, .type .anything], some 0⟩] ∧
      file.evaluate.value = .error (.trouble (.ofCause (.located located))) ∧
      located.line = some 0 ∧ located.sourceLine = none) ∧
    ∃ file located, (parse "requests.json" threeRequests).value = .ok file ∧
      file.evaluate.value = .error (.trouble (.ofCause (.located located))) ∧
      located.line = some 2 ∧
      located.sourceLine = some secondLine := by
  constructor
  · have hread : readEntries _ =
        .ok [⟨.callable "Callable" [.args [], .type .nothing, .type .anything], some 0⟩] :=
      readEntries_compact (by decide) (by decide) (by decide)
    have hfile := parse_of_readEntries hread "requests.json"
    obtain ⟨pieces, located, -, hvalue, hline, hnone, -⟩ := sourceLine_of_parse hfile (k := 0)
      ⟨rfl, rfl, fun _ h => absurd h List.not_mem_nil⟩ rfl
    exact ⟨_, _, located, hfile, rfl, hvalue, hline, hnone.mpr (.inl rfl)⟩
  · have hfile := parse_of_readEntries readEntries_threeRequests "requests.json"
    obtain ⟨pieces, located, hpieces, hvalue, hline, -, hfound, -⟩ := sourceLine_of_parse hfile
      (k := 1) ⟨rfl, rfl, List.forall_mem_singleton.mpr ⟨_, rfl⟩⟩ rfl
    obtain ⟨others, piece, hothers, -, hpiece, hsecond⟩ := isLine_secondLine
    obtain rfl := (hpieces others).mp hothers
    exact ⟨_, located, hfile, hvalue, hline, hsecond ▸ hfound piece (by decide) hpiece⟩

end RequestFile

end TypeExpr
