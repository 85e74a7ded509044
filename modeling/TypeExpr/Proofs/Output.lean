import TypeExpr.Proofs.Entry
import TypeExpr.Proofs.Evaluation
import TypeExpr.Proofs.Json.Printable

/-!
# What a run prints

A run prints the outcomes of all requests or nothing, and it ends with exit code zero only in the
first case. With outcomes printed as JSON each of them takes one line, and the line says what the
outcome is to whoever reads it by itself: a flag is a truth value, and a node is read back from its
line, since it is sound and not nested too deep.

That the output can be taken apart at its line ends needs the lines to have none inside, whatever
names the nodes have.
-/

namespace TypeExpr

open Json (Draft Document)

/-! ### Lines -/

namespace Text

/-- A line without control characters in front of a line end is split off as it is. -/
theorem splitLines_append {cs : List Char} (h : Json.Printable cs) (rest : List Char) :
    splitLines (cs ++ '\n' :: rest) = cs :: splitLines rest := by
  induction cs with
  | nil => rw [List.nil_append, splitLines]
  | cons c cs ih =>
    obtain ⟨hc, hcs⟩ := Json.printable_cons.mp h
    rw [List.cons_append, splitLines, ih hcs, consFirst]
    · rintro rfl
      exact absurd hc (by decide)
    · rintro _ rfl
      exact absurd hc (by decide)

/-- **Lines without control characters**, each with its end, are the lines of their text. -/
theorem lines_join {texts : List String} (h : ∀ text ∈ texts, Json.Printable text.toList) :
    lines (String.join (texts.map (· ++ "\n"))) = texts := by
  have hsplit : splitLines (texts.flatMap fun text => text.toList ++ ['\n']) =
      texts.map String.toList := by
    induction texts with
    | nil => rfl
    | cons text texts ih =>
      rw [List.flatMap_cons, List.append_assoc, List.singleton_append,
        splitLines_append (h text List.mem_cons_self),
        ih fun text hmem => h text (List.mem_cons_of_mem _ hmem), List.map_cons]
  have hjoin : (String.join (texts.map (· ++ "\n"))).toList =
      texts.flatMap fun text => text.toList ++ ['\n'] := by
    simp [String.toList_join, List.flatMap_map]
  rw [lines, hjoin, hsplit, List.map_map]
  simp

end Text

/-! ### Runs -/

theorem RequestFile.load_eq_ok_iff {path : String} {got : Except FileError ByteArray}
    {file : RequestFile} :
    (load path got).value = .ok file ↔
      ∃ bytes source, got = .ok bytes ∧ String.fromUTF8? bytes = some source ∧
        (parse path source).value = .ok file := by
  unfold load
  cases got with
  | error error => simp
  | ok bytes =>
    cases hsource : String.fromUTF8? bytes with
    | none => simp [hsource]
    | some source => simp [hsource]

namespace Invocation

/-- A run ends with exit code zero if the file is read and has outcomes. -/
theorem exitCode_run_eq_zero_iff {invocation : Invocation} {got : Except FileError ByteArray} :
    (invocation.run got).exitCode = 0 ↔
      ∃ outcomes, (invocation.evaluate got).value = .ok outcomes := by
  rw [run]
  cases (invocation.evaluate got).value with
  | ok outcomes => simp [Run.exitCode]
  | error failure => cases failure <;> simp [Run.exitCode]

theorem output_run {invocation : Invocation} {got : Except FileError ByteArray}
    {outcomes : List Outcome} (h : (invocation.evaluate got).value = .ok outcomes) :
    (invocation.run got).output = String.join (outcomes.map invocation.lineOf) := by
  rw [run, h]
  rfl

/-- The outcomes of a run are those of the file that it read. -/
theorem evaluate_eq_ok_iff {invocation : Invocation} {got : Except FileError ByteArray}
    {outcomes : List Outcome} :
    (invocation.evaluate got).value = .ok outcomes ↔
      ∃ file, (RequestFile.load invocation.file got).value = .ok file ∧
        file.evaluate.value = .ok outcomes := by
  unfold evaluate RequestFile.evaluateLoaded
  cases (RequestFile.load invocation.file got).value with
  | ok file => simp
  | error trouble => simp

end Invocation

/-! ### Outcomes -/

theorem Outcome.compact_flag (value : Bool) :
    (flag value).toJson.compact = if value then "true" else "false" := by
  rw [← String.toList_inj, Json.compact, String.toList_ofList]
  cases value <;> rfl

/-- **A node that a request of a file evaluates to** is sound, and its written form keeps within
the nesting limit. -/
theorem RequestFile.sound_and_nesting_of_evaluate {path source : String} {file : RequestFile}
    (hparse : (parse path source).value = .ok file) {entry : Entry} (hentry : entry ∈ file.entries)
    {node : Node} (heval : entry.request.evaluate.value = .ok (.node node)) :
    node.Sound ∧ node.nesting ≤ Json.nestingLimit := by
  refine ⟨Request.sound_of_evaluate (fun param => sound_of_parse hparse hentry) heval, ?_⟩
  obtain ⟨-, -, hread⟩ := parse_eq_ok_iff.mp hparse
  obtain ⟨items, hdocument, hitems⟩ := readEntries_eq_ok_iff.mp hread
  obtain ⟨item, hitem, hspells⟩ := exists_of_mem_forall₂ hitems hentry
  have hlimit := Document.nesting_read_le source
  rw [hdocument] at hlimit
  have hle := Draft.nesting_le_of_mem_items hitem
  -- the array and the entry are the two levels above the members
  obtain ⟨-, -, hrequest, -, -⟩ := hspells
  refine Request.nesting_of_evaluate hrequest ?_ heval
  simp only [Draft.nesting] at hlimit hle
  omega

/-- **The output of a run that prints JSON and ends with exit code zero.** The file was read, each
of its requests has an outcome, and the output is the compact texts of the outcomes, each with a
line end behind it and no other control character. The line of a node is nested no deeper than a
reader goes, and gives the node if it is read by itself; the line of a flag is its name. -/
theorem Run.json_output (args : List String) (files : FileSet) (path : String)
    (hargs : Invocation.ofArgs? args = some ⟨path, true⟩)
    (hexit : (Run.ofArgs args files).exitCode = 0) :
    ∃ bytes source file outcomes, files.read path = .ok bytes ∧
      String.fromUTF8? bytes = some source ∧
      (RequestFile.parse path source).value = .ok file ∧
      file.evaluate.value = .ok outcomes ∧
      outcomes.length = file.entries.length ∧
      (Run.ofArgs args files).output =
        String.join (outcomes.map fun outcome => outcome.toJson.compact ++ "\n") ∧
      Text.lines (Run.ofArgs args files).output =
        outcomes.map (fun outcome => outcome.toJson.compact) ∧
      ∀ outcome ∈ outcomes, (∀ c ∈ outcome.toJson.compact.toList, 0x20 ≤ c.toNat) ∧
        match outcome with
        | .node node => node.toJson.nesting ≤ Json.nestingLimit ∧
            Node.read outcome.toJson.compact = .ok node
        | .flag value => outcome.toJson.compact = if value then "true" else "false" := by
  have hrun : Run.ofArgs args files = (Invocation.mk path true).run (files.read path) := by
    rw [ofArgs, hargs]
  rw [hrun] at hexit ⊢
  obtain ⟨outcomes, hevaluate⟩ := Invocation.exitCode_run_eq_zero_iff.mp hexit
  obtain ⟨file, hload, houtcomes⟩ := Invocation.evaluate_eq_ok_iff.mp hevaluate
  obtain ⟨bytes, source, hbytes, hsource, hparse⟩ := RequestFile.load_eq_ok_iff.mp hload
  have hsteps := RequestFile.evaluateFrom_eq_ok_iff.mp houtcomes
  have houtput := Invocation.output_run hevaluate
  refine ⟨bytes, source, file, outcomes, hbytes, hsource, hparse, houtcomes,
    hsteps.length_eq.symm, houtput, ?_, fun outcome hmem => ⟨Json.printable_compact _, ?_⟩⟩
  · rw [houtput]
    have htexts : ∀ text ∈ outcomes.map fun outcome => outcome.toJson.compact,
        Json.Printable text.toList := by
      intro text hmem
      obtain ⟨outcome, -, rfl⟩ := List.mem_map.mp hmem
      exact Json.printable_compact outcome.toJson
    have hlines := Text.lines_join htexts
    rw [List.map_map] at hlines
    exact hlines
  · obtain ⟨entry, hentry, heval⟩ := exists_of_mem_forall₂ hsteps hmem
    cases outcome with
    | node node =>
      obtain ⟨hsound, hnesting⟩ := RequestFile.sound_and_nesting_of_evaluate hparse hentry heval
      exact ⟨node.nesting_toJson ▸ hnesting, Node.read_compact_of_sound hsound hnesting⟩
    | flag value => exact Outcome.compact_flag value

/-- A run on a file with two written entries prints two lines. -/
theorem Run.json_output_two_lines :
    ∃ outcomes : List Outcome, outcomes.length = 2 ∧
      Text.lines (Run.ofArgs ["requests.json", "--json"] ⟨[("requests.json", .file (Json.array
          ([⟨.typeOf (.named "int"), some 3⟩, ⟨.isAny .anything, none⟩].map
            Entry.toJson)).compact.toUTF8)]⟩).output =
        outcomes.map fun outcome => outcome.toJson.compact := by
  have hread := @RequestFile.readEntries_compact [⟨.typeOf (.named "int"), some 3⟩,
    ⟨.isAny .anything, none⟩] (by decide) (by decide) (by decide)
  generalize (Json.array ([⟨.typeOf (.named "int"), some 3⟩, ⟨.isAny .anything, none⟩].map
    Entry.toJson)).compact = source at hread ⊢
  have hsource : String.fromUTF8? source.toUTF8 = some source := dif_pos source.isValidUTF8
  have hexit : (Run.ofArgs ["requests.json", "--json"]
      ⟨[("requests.json", .file source.toUTF8)]⟩).exitCode = 0 := by
    refine Invocation.exitCode_run_eq_zero_iff.mpr ⟨_, Invocation.evaluate_eq_ok_iff.mpr
      ⟨⟨"requests.json", Text.lines source, _⟩, RequestFile.load_eq_ok_iff.mpr
        ⟨_, source, rfl, hsource, RequestFile.parse_of_readEntries hread _⟩,
          RequestFile.evaluateFrom_eq_ok_iff.mpr (.cons rfl (.cons rfl .nil))⟩⟩
  obtain ⟨bytes, source', file, outcomes, hbytes, hsource', hparse, -, hlength, -, hlines, -⟩ :=
    Run.json_output _ _ "requests.json" (by decide) hexit
  obtain rfl : source.toUTF8 = bytes := Except.ok.inj hbytes
  obtain rfl : source = source' := Option.some.inj (hsource.symm.trans hsource')
  obtain ⟨-, -, hentries⟩ := RequestFile.parse_eq_ok_iff.mp hparse
  have hcount := Except.ok.inj (hread.symm.trans hentries)
  exact ⟨outcomes, by rw [hlength, ← hcount]; rfl, hlines⟩

end TypeExpr
