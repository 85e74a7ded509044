import TypeExpr.Proofs.FirstFailure

/-!
# The journal of a request file

A journal is read as lines: each record has a level, an activity it belongs to, and a wording
(`Record.shown`). This file says which lines there are, for a file that was read and evaluated, in
terms of the requests and the outcomes alone.

| what happened | what is in the journal |
|---|---|
| the file was read | one line with the number of requests |
| a request has an outcome | the lines of building its node, and one line with the outcome |
| a request fails | the lines of building its node |
| a request behind a failure | nothing |

Building has something to say in two places only, and both concern callables. That a return type
is assumed is said as soon as it is missed, and so also where something turns out to be wrong
afterwards. That the arguments are unknown is said of a node that is there, a generic
(`Callable.notes`).
-/

namespace TypeExpr

/-- A record as it is shown: its level, what was being done, and what is said. -/
def Record.shown (record : Record) : Level × Activity × String :=
  (record.level, record.activity, record.message)

namespace Callable

/-- Whether the attempt to build a node gave a generic. -/
def isGeneric : Except CallableError Node → Bool
  | .ok (.applied .generic _ _) => true
  | _ => false

/-- **What is said on building a node for a callable annotation**: that no return type is given, if
the first parameter is the only one, and that the arguments are unknown, if the node is a
generic. -/
def notes (base : String) (first : Parameter) (more : List Parameter) :
    List (Level × Activity × String) :=
  let ret := (more.head?.map Parameter.text).getD "Any"
  (if more = [] then
    [(.debug, .building, base ++ "[" ++ first.text ++ "] has no return type, assuming Any")]
  else []) ++
  if isGeneric (build base first more).value then
    [(.trace, .building, base ++ "[" ++ first.text ++ ", " ++ ret ++ "] has unknown arguments")]
  else []

/-- Listed arguments give a callable, if anything. -/
theorem isGeneric_ofItems (base : String) (items : List Argument) (ret : Node) :
    isGeneric (ofItems base items ret) = false := by
  rw [ofItems]
  split
  · rfl
  · split <;> rfl

theorem shown_ofArguments (base : String) (args : Parameter) (ret : Node) :
    (ofArguments base args ret).records.map Record.shown =
      if isGeneric (ofArguments base args ret).value then
        [(.trace, .building, base ++ "[" ++ args.text ++ ", " ++ ret.text ++
          "] has unknown arguments")]
      else [] := by
  cases args with
  | args items =>
    rw [ofArguments, Logged.value_quiet, isGeneric_ofItems]
    rfl
  | type node =>
    rw [ofArguments]
    cases node.isAny <;> rfl

/-- **The records of building a callable** are what is said on it. -/
theorem shown_build (base : String) (first : Parameter) (more : List Parameter) :
    (build base first more).records.map Record.shown = notes base first more := by
  rcases more with _ | ⟨second, _ | ⟨third, others⟩⟩
  · rw [notes, build, Logged.records_after, Logged.value_after, List.map_append,
      shown_ofArguments]
    rfl
  · cases second with
    | args items => rfl
    | type ret => exact shown_ofArguments base first ret
  · cases second <;> rfl

end Callable

namespace Request

/-- **What is said on building the node of a request**, which is something only for callables. -/
def notes : Request → List (Level × Activity × String)
  | callable base (first :: more) => Callable.notes base first more
  | _ => []

/-- **The records of a request** are what is said on building its node. -/
theorem shown_evaluate (request : Request) :
    request.evaluate.records.map Record.shown = request.notes := by
  cases request with
  | callable base params =>
    cases params with
    | nil => rfl
    | cons first more => exact Callable.shown_build base first more
  | _ => rfl

end Request

namespace RequestFile

variable {file : RequestFile}

/-- The entries of a file are those with outcomes, and from the first failure on the others. -/
theorem exists_outcomes (file : RequestFile) :
    ∃ before rest outcomes, file.entries = before ++ rest ∧
      List.Forall₂ (fun (entry : Entry) outcome => entry.request.evaluate.value = .ok outcome)
        before outcomes ∧
      ∀ entry ∈ rest.head?, ∃ failure, entry.request.evaluate.value = .error failure := by
  rcases file.forall_or_exists_failsAt with hall | ⟨k, entry, failure, hfails⟩
  · obtain ⟨outcomes, houtcomes⟩ := exists_forall₂_iff.mpr hall
    exact ⟨file.entries, [], outcomes, (List.append_nil _).symm, houtcomes, nofun⟩
  · obtain ⟨outcomes, houtcomes⟩ := exists_forall₂_iff.mpr hfails.before
    refine ⟨_, _, outcomes, hfails.entries_eq.1, houtcomes, ?_⟩
    rintro _ ⟨⟩
    exact ⟨failure, hfails.fails⟩

/-- The journal of the evaluation stops at the first failure. -/
theorem records_evaluate {before rest : List Entry} {outcomes : List Outcome}
    (hentries : file.entries = before ++ rest)
    (hbefore : List.Forall₂ (fun (entry : Entry) outcome =>
      entry.request.evaluate.value = .ok outcome) before outcomes)
    (hrest : ∀ entry ∈ rest.head?, ∃ failure, entry.request.evaluate.value = .error failure) :
    file.evaluate.records =
      progress 0 before outcomes ++
        rest.head?.elim [] fun entry => entry.request.evaluate.records := by
  rw [evaluate, hentries, evaluateFrom_append hbefore, Logged.records_after, Logged.records_map]
  congr 1
  cases rest with
  | nil => rfl
  | cons entry rest =>
    obtain ⟨failure, hfails⟩ := hrest entry rfl
    rw [evaluateFrom_cons_of_error hfails]
    rfl

/-- What is said of requests with outcomes, one after the other. -/
theorem shown_progress (index : Nat) (entries : List Entry) (outcomes : List Outcome) :
    (progress index entries outcomes).map Record.shown =
      ((entries.zip outcomes).zipIdx index).flatMap fun ((entry, outcome), i) =>
        entry.request.notes ++
          [(.trace, .serving, "request " ++ toString i ++ " -> " ++ outcome.text)] := by
  rw [progress, List.map_flatMap]
  refine List.flatMap_congr fun step _ => ?_
  obtain ⟨⟨entry, outcome⟩, i⟩ := step
  dsimp only
  rw [List.map_append, Request.shown_evaluate]
  rfl

/-- **The journal of a file** that is read and then evaluated. First it is said that the file was
read. Then, for each of the requests before the first failure, there is what is said on building its
node, and its outcome with the index of the request. If there is a failure, what is said on building
the node of the request that fails comes last, and of the requests behind it nothing is said. -/
theorem journal_of_parse {path source : String} (hfile : (parse path source).value = .ok file) :
    ∃ before rest outcomes, file.entries = before ++ rest ∧
      List.Forall₂ (fun (entry : Entry) outcome => entry.request.evaluate.value = .ok outcome)
        before outcomes ∧
      (∀ entry ∈ rest.head?, ∃ failure, entry.request.evaluate.value = .error failure) ∧
      (evaluateLoaded (parse path source)).records.map Record.shown =
        (.debug, .serving,
          "Loaded " ++ toString file.entries.length ++ " request(s) from " ++ path) ::
        ((before.zip outcomes).zipIdx.flatMap fun ((entry, outcome), i) =>
          entry.request.notes ++
            [(.trace, .serving, "request " ++ toString i ++ " -> " ++ outcome.text)]) ++
        rest.head?.elim [] fun entry => entry.request.notes := by
  obtain ⟨before, rest, outcomes, hentries, hbefore, hrest⟩ := file.exists_outcomes
  refine ⟨before, rest, outcomes, hentries, hbefore, hrest, ?_⟩
  obtain ⟨-, -, hread⟩ := parse_eq_ok_iff.mp hfile
  have hrecords : (parse path source).records = [.loaded file.entries.length path] := by
    rw [parse, hread]
  have hevaluate : (evaluateLoaded (parse path source)).records =
      .loaded file.entries.length path :: file.evaluate.records := by
    rw [evaluateLoaded, hfile]
    dsimp only
    rw [Logged.records_after, hrecords]
    rfl
  have hlast : (rest.head?.elim [] fun entry => entry.request.evaluate.records).map Record.shown =
      rest.head?.elim [] fun entry => entry.request.notes := by
    cases rest with
    | nil => rfl
    | cons entry rest => exact entry.request.shown_evaluate
  rw [hevaluate, records_evaluate hentries hbefore hrest, List.map_cons, List.map_append,
    shown_progress, hlast]
  rfl

/-- A file whose second request fails. That no return type is given is said of it too, and of the
third request nothing is said. -/
theorem journal_of_parse_three :
    ∃ source file, (parse "requests.json" source).value = .ok file ∧
      (evaluateLoaded (parse "requests.json" source)).records.map Record.shown =
        [(.debug, .serving, "Loaded 3 request(s) from requests.json"),
          (.debug, .building, "C[Any] has no return type, assuming Any"),
          (.trace, .building, "C[Any, Any] has unknown arguments"),
          (.trace, .serving, "request 0 -> C[Any, Any]"),
          (.debug, .building, "C[int] has no return type, assuming Any")] := by
  have hread : readEntries _ = .ok [⟨.callable "C" [.type .anything], none⟩,
      ⟨.callable "C" [.type (.named "int")], some 1⟩, ⟨.isNone .nothing, none⟩] :=
    readEntries_compact (by decide) (by decide) (by decide)
  have hfile := parse_of_readEntries hread "requests.json"
  refine ⟨_, _, hfile, ?_⟩
  obtain ⟨before, rest, outcomes, hentries, hbefore, hrest, hrecords⟩ := journal_of_parse hfile
  rw [hrecords]
  -- the first request has an outcome and the second has none
  rcases before with _ | ⟨entry, _ | ⟨second, before⟩⟩
  · obtain rfl : _ = rest := hentries
    obtain ⟨failure, hfails⟩ := hrest _ rfl
    cases hfails
  · obtain ⟨rfl, rfl⟩ := List.cons.inj hentries
    obtain _ | ⟨⟨⟩, _ | _⟩ := hbefore
    rfl
  · obtain ⟨rfl, heq⟩ := List.cons.inj hentries
    obtain ⟨rfl, -⟩ := List.cons.inj heq
    obtain _ | ⟨-, _ | ⟨hsecond, -⟩⟩ := hbefore
    cases hsecond

end RequestFile

end TypeExpr
