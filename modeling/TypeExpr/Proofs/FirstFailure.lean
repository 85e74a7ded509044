import TypeExpr.Proofs.Entry
import TypeExpr.Proofs.Evaluation
import TypeExpr.Proofs.Text.Lines

/-!
# The first failure of a file

The requests of a file are evaluated in order, and each of them on its own, as if it were the only
one. The first that has no outcome ends the evaluation (`RequestFile.FailsAt`). What is returned is
then made from this request alone, its place in the file and the text of the file. Nothing is left
of the outcomes before it, and nothing behind it was looked at: with other entries in their place
the evaluation is the same, down to the journal.

The two lemmas about one step say what an entry makes of the evaluation of the entries behind it:
it adds an outcome in front, or it puts an end to it whatever they are. The run is an induction on
the entries before the failure.
-/

namespace TypeExpr.RequestFile

/-- **The first failure of a file**: the request with this index, counted from zero, fails, and
each request before it has an outcome. -/
structure FailsAt (file : RequestFile) (k : Nat) (entry : Entry) (failure : Request.Failure) :
    Prop where
  entry_eq : file.entries[k]? = some entry
  fails : entry.request.evaluate.value = .error failure
  before : ∀ earlier ∈ file.entries.take k,
    ∃ outcome, earlier.request.evaluate.value = .ok outcome

/-- What the evaluation of a file ends with if the request with this index fails. -/
def failureAt (file : RequestFile) (index : Nat) (entry : Entry) : Request.Failure → Failure
  | .rejected error => .trouble (.ofCause (.located (file.locate index entry error)))
  | .noParameters => .noParameters

/-- Either all elements of a list are as they should be, or there is a first that is not. -/
theorem forall_or_exists_first {α : Type} {p : α → Prop} (xs : List α) :
    (∀ x ∈ xs, p x) ∨ ∃ k x, xs[k]? = some x ∧ ¬p x ∧ ∀ y ∈ xs.take k, p y := by
  induction xs with
  | nil => exact .inl fun _ h => absurd h List.not_mem_nil
  | cons x xs ih =>
    by_cases hx : p x
    · rcases ih with hall | ⟨k, y, hy, hnot, hbefore⟩
      · exact .inl (List.forall_mem_cons.mpr ⟨hx, hall⟩)
      · exact .inr ⟨k + 1, y, hy, hnot, List.forall_mem_cons.mpr ⟨hx, hbefore⟩⟩
    · exact .inr ⟨0, x, rfl, hx, fun _ h => absurd h List.not_mem_nil⟩

variable {file : RequestFile} {index : Nat} {entry : Entry} {entries : List Entry}

/-- **Each request of a file has an outcome, or there is a first failure.** -/
theorem forall_or_exists_failsAt (file : RequestFile) :
    (∀ entry ∈ file.entries, ∃ outcome, entry.request.evaluate.value = .ok outcome) ∨
      ∃ k entry failure, file.FailsAt k entry failure := by
  refine (forall_or_exists_first file.entries).imp_right ?_
  rintro ⟨k, entry, hentry, hnone, hbefore⟩
  cases hvalue : entry.request.evaluate.value with
  | ok outcome => exact absurd ⟨outcome, hvalue⟩ hnone
  | error failure => exact ⟨k, entry, failure, hentry, hvalue, hbefore⟩

/-! ### One step -/

/-- **An outcome** is put in front of those of the entries behind it. -/
theorem evaluateFrom_cons_of_ok {outcome : Outcome}
    (h : entry.request.evaluate.value = .ok outcome) :
    file.evaluateFrom index (entry :: entries) =
      ((file.evaluateFrom (index + 1) entries).map fun rest => rest.map (outcome :: ·)).after
        (entry.request.evaluate.records ++ [.evaluated index outcome]) := by
  rw [evaluateFrom]
  simp only [h]

/-- **A failure** ends the evaluation, and the entries behind it are not looked at. -/
theorem evaluateFrom_cons_of_error {failure : Request.Failure}
    (h : entry.request.evaluate.value = .error failure) :
    file.evaluateFrom index (entry :: entries) =
      ⟨.error (file.failureAt index entry failure), entry.request.evaluate.records⟩ := by
  rw [evaluateFrom]
  simp only [h]
  cases failure <;> rfl

/-! ### The run -/

/-- What goes into the journal for entries with these outcomes, of which the first has this index:
for each of them the records of its own evaluation, and then that it was evaluated. -/
def progress (index : Nat) (entries : List Entry) (outcomes : List Outcome) : List Record :=
  ((entries.zip outcomes).zipIdx index).flatMap fun ((entry, outcome), i) =>
    entry.request.evaluate.records ++ [.evaluated i outcome]

/-- **Entries that have outcomes** leave the evaluation to those behind them, and put their own
outcomes and records in front. -/
theorem evaluateFrom_append {before rest : List Entry} {outcomes : List Outcome}
    (h : List.Forall₂ (fun (entry : Entry) outcome => entry.request.evaluate.value = .ok outcome)
      before outcomes) :
    file.evaluateFrom index (before ++ rest) =
      ((file.evaluateFrom (index + before.length) rest).map fun others =>
        others.map (outcomes ++ ·)).after (progress index before outcomes) := by
  induction h generalizing index with
  | nil =>
    rcases hrest : file.evaluateFrom index rest with ⟨_ | others, records⟩ <;>
      simp [hrest, progress, Logged.map, Logged.after, Except.map]
  | @cons entry outcome before outcomes hfirst _ ih =>
    have hindex : index + 1 + before.length = index + (entry :: before).length := by
      simp only [List.length_cons]
      omega
    rw [List.cons_append, evaluateFrom_cons_of_ok hfirst, ih, hindex]
    rcases file.evaluateFrom (index + (entry :: before).length) rest with ⟨_ | others, records⟩ <;>
      simp [progress, Logged.map, Logged.after, Except.map, List.zipIdx_cons]

/-- **What comes up to the first failure decides**: there is one journal that the evaluation has
whatever follows. -/
theorem exists_evaluateFrom_eq {before : List Entry} {failure : Request.Failure}
    (hbefore : ∀ earlier ∈ before, ∃ outcome, earlier.request.evaluate.value = .ok outcome)
    (hfails : entry.request.evaluate.value = .error failure) (file : RequestFile) (index : Nat) :
    ∃ records, ∀ rest, file.evaluateFrom index (before ++ entry :: rest) =
      ⟨.error (file.failureAt (index + before.length) entry failure), records⟩ := by
  obtain ⟨outcomes, houtcomes⟩ := exists_forall₂_iff.mpr hbefore
  refine ⟨progress index before outcomes ++ entry.request.evaluate.records, fun rest => ?_⟩
  rw [evaluateFrom_append houtcomes, evaluateFrom_cons_of_error hfails]
  rfl

/-- The path and the lines of a file are all that the evaluation of entries asks it for. -/
theorem evaluateFrom_with_entries (others : List Entry) :
    { file with entries := others }.evaluateFrom index entries =
      file.evaluateFrom index entries := by
  induction entries generalizing index with
  | nil => rfl
  | cons entry entries ih =>
    rw [evaluateFrom, evaluateFrom, ih]
    rfl

/-- The entries of a file around one of them. -/
theorem FailsAt.entries_eq {k : Nat} {failure : Request.Failure}
    (h : file.FailsAt k entry failure) :
    file.entries = file.entries.take k ++ entry :: file.entries.drop (k + 1) ∧
      (file.entries.take k).length = k := by
  obtain ⟨hk, hentry⟩ := List.getElem?_eq_some_iff.mp h.entry_eq
  refine ⟨?_, List.length_take_of_le hk.le⟩
  rw [← hentry, List.getElem_cons_drop, List.take_append_drop]

/-- **The first failure is what the evaluation of a file comes to**, whatever the entries behind
it are. -/
theorem FailsAt.evaluate_eq {k : Nat} {failure : Request.Failure}
    (h : file.FailsAt k entry failure) :
    file.evaluate.value = .error (file.failureAt k entry failure) ∧
      ∀ others, { file with entries := file.entries.take (k + 1) ++ others }.evaluate =
        file.evaluate := by
  obtain ⟨hentries, hlength⟩ := h.entries_eq
  obtain ⟨records, hrun⟩ := exists_evaluateFrom_eq h.before h.fails file 0
  rw [hlength, Nat.zero_add] at hrun
  have hfile : file.evaluate = ⟨.error (file.failureAt k entry failure), records⟩ := by
    rw [evaluate, hentries]
    exact hrun _
  refine ⟨congrArg Logged.value hfile, fun others => ?_⟩
  have htake : file.entries.take (k + 1) ++ others =
      file.entries.take k ++ entry :: others := by
    rw [List.take_add_one, h.entry_eq, List.append_assoc]
    rfl
  -- the other file has the path and the lines of this one
  rw [evaluate, evaluateFrom_with_entries, hfile]
  change file.evaluateFrom 0 (file.entries.take (k + 1) ++ others) = _
  rw [htake, hrun]

/-- The line of a request with a parameter too many, which gives the number two. -/
def secondLine : String :=
  " \x7b\"op\":\"callable\",\"base\":\"Callable\",\"params\":[\x7b\"args\":[]\x7d," ++
    "\x7b\"type\":\"nothing\"\x7d,\x7b\"type\":\"anything\"\x7d],\"line\":2\x7d,"

/-- A file with a request on each of its lines. The third request has no parameters. -/
def threeRequests : String :=
  "[\x7b\"op\":\"is_none\",\"value\":\"nothing\"\x7d,\n" ++ secondLine ++ "\n" ++
    " \x7b\"op\":\"callable\",\"base\":\"Callable\",\"params\":[]\x7d]\n"

theorem readEntries_threeRequests : readEntries threeRequests =
    .ok [⟨.isNone .nothing, none⟩,
      ⟨.callable "Callable" [.args [], .type .nothing, .type .anything], some 2⟩,
      ⟨.callable "Callable" [], none⟩] := by
  decide +kernel

theorem isLine_secondLine : Text.IsLine threeRequests 2 secondLine := by
  rw [← Text.line?_eq_some_iff]
  decide +kernel

/-- **The evaluation of a file that has been read.** If each of its requests has an outcome on its
own, then these are the outcomes of the file, one for each entry and in order. If not, it has no
outcome. The first request that fails is put down to its number, counted from one, to its line and
to the text of that line in the file, if there is such a line; if a callable was asked for without a
parameter, that ends the run. In either case nothing depends on the entries behind it. -/
theorem evaluate_of_parse {path source : String} (hfile : (parse path source).value = .ok file) :
    ((∀ entry ∈ file.entries, ∃ outcome, entry.request.evaluate.value = .ok outcome) →
      ∃ outcomes, file.evaluate.value = .ok outcomes ∧
        List.Forall₂ (fun (entry : Entry) outcome => entry.request.evaluate.value = .ok outcome)
          file.entries outcomes) ∧
    ∀ k entry failure, file.FailsAt k entry failure →
      (∀ error, failure = .rejected error → ∃ sourceLine,
        sourceLine = entry.line.bind (Text.line? (Text.lines source)) ∧
        (∀ text, sourceLine = some text ↔ ∃ n ∈ entry.line, Text.IsLine source n text) ∧
        file.evaluate.value = .error (.trouble (.ofCause (.located
          { category := error.category
            message := error.message
            file := path
            line := entry.line
            request := some (k + 1)
            sourceLine := sourceLine })))) ∧
      (failure = .noParameters → file.evaluate.value = .error .noParameters) ∧
      ∀ others, { file with entries := file.entries.take (k + 1) ++ others }.evaluate =
        file.evaluate := by
  obtain ⟨rfl, hlines, -⟩ := parse_eq_ok_iff.mp hfile
  constructor
  · intro hall
    obtain ⟨outcomes, houtcomes⟩ := exists_forall₂_iff.mpr hall
    exact ⟨outcomes, evaluateFrom_eq_ok_iff.mpr houtcomes, houtcomes⟩
  · intro k entry failure hfails
    obtain ⟨hvalue, hothers⟩ := hfails.evaluate_eq
    refine ⟨?_, ?_, hothers⟩
    · rintro error rfl
      refine ⟨_, rfl, fun text => ?_, ?_⟩
      · simp only [Option.bind_eq_some_iff, Text.line?_eq_some_iff, Option.mem_def]
      · rw [hvalue, ← hlines]
        rfl
    · rintro rfl
      exact hvalue

/-- The third of three requests would end the run, but it is not reached. -/
theorem evaluate_of_parse_three :
    ∃ file, (parse "requests.json" threeRequests).value = .ok file ∧
      file.entries = [⟨.isNone .nothing, none⟩,
        ⟨.callable "Callable" [.args [], .type .nothing, .type .anything], some 2⟩,
        ⟨.callable "Callable" [], none⟩] ∧
      file.evaluate.value = .error (.trouble (.ofCause (.located
        { category := .typeError
          message := "Expected 2 parameters to Callable, got 3"
          file := "requests.json"
          line := some 2
          request := some 2
          sourceLine := some secondLine }))) := by
  have hfile := parse_of_readEntries readEntries_threeRequests "requests.json"
  refine ⟨_, hfile, rfl, ?_⟩
  obtain ⟨sourceLine, -, hlines, hvalue⟩ := ((evaluate_of_parse hfile).2 1 _ (.rejected (.arity 3))
    ⟨rfl, rfl, List.forall_mem_singleton.mpr ⟨_, rfl⟩⟩).1 _ rfl
  rw [hvalue, (hlines secondLine).mpr ⟨2, rfl, isLine_secondLine⟩]
  rfl

end TypeExpr.RequestFile
