import TypeExpr.Proofs.Output

/-!
# Calls and runs

A call names one file, and may ask for JSON. Which lists of arguments are calls is said here of the
list as a whole (`Invocation.Legal`): it is taken apart at a `--`, if there is one to take it apart
at, and then it is a matter of counting. The program goes through the list from the front instead,
and keeps account of what it has seen. So the grammar is stated for what is left to come after
something has been seen (`Invocation.Completes`), with the whole list as the case in which nothing
has been seen yet, and the induction along the list moves one argument after the other from what is
left to what has been seen.

A run that was called in such a way does what the library does with the file, and shows it. Nothing
is printed before everything has been evaluated, so the outcomes are printed together or not at
all, and whether they are printed as JSON has no bearing on anything else.
-/

namespace TypeExpr

namespace Invocation

/-! ### Legal arguments -/

/-- The arguments in front of a `--` and those behind it. Where there is none, all of them are in
front. -/
def Splits (args front back : List String) : Prop :=
  args = front ∧ back = [] ∨ args = front ++ "--" :: back

/-- **What is left of a call** after a name, perhaps, and the option for JSON, perhaps, have been
seen of it. In front of a `--` there are no other options than this one, which comes once in the
whole call or not at all. All other arguments are names, those behind the `--` whatever they look
like. There is one name in the whole call, and no argument is empty. -/
structure Completes (found : Option String) (json : Bool) (front back : List String)
    (invocation : Invocation) : Prop where
  option_eq : ∀ arg ∈ front, isOption arg = true → arg = "--json"
  json_eq : json.toNat + front.count "--json" = invocation.json.toNat
  names_eq : found.toList ++ (front.filter (· ≠ "--json") ++ back) = [invocation.file]
  ne_empty : ∀ arg ∈ front ++ back, arg ≠ ""

/-- **A legal list of arguments**, and what it calls for. -/
def Legal (args : List String) (invocation : Invocation) : Prop :=
  ∃ front back, Splits args front back ∧ Completes none false front back invocation

section Completes

variable {found : Option String} {json : Bool} {arg : String} {front back args : List String}
  {invocation : Invocation}

/-- The first argument is the mark, or it is in front of the mark. -/
theorem splits_cons_iff :
    Splits (arg :: args) front back ↔
      (arg = "--" ∧ front = [] ∧ back = args) ∨
        ∃ rest, front = arg :: rest ∧ Splits args rest back := by
  constructor
  · rintro (⟨rfl, rfl⟩ | h)
    · exact .inr ⟨args, rfl, .inl ⟨rfl, rfl⟩⟩
    · rcases front with _ | ⟨first, rest⟩
      · obtain ⟨rfl, rfl⟩ := List.cons.inj h
        exact .inl ⟨rfl, rfl, rfl⟩
      · obtain ⟨rfl, rfl⟩ := List.cons.inj h
        exact .inr ⟨rest, rfl, .inr rfl⟩
  · rintro (⟨rfl, rfl, rfl⟩ | ⟨rest, rfl, ⟨rfl, rfl⟩ | rfl⟩)
    · exact .inr rfl
    · exact .inl ⟨rfl, rfl⟩
    · exact .inr rfl

/-- An argument that is not the mark goes from what is left of a call to what has been seen of it,
if it meets a condition. -/
theorem exists_splits_cons_iff (hmark : arg ≠ "--") {p q : List String → List String → Prop}
    {condition : Prop} (hstep : ∀ front back, p (arg :: front) back ↔ condition ∧ q front back) :
    (∃ front back, Splits (arg :: args) front back ∧ p front back) ↔
      condition ∧ ∃ front back, Splits args front back ∧ q front back := by
  constructor
  · rintro ⟨front, back, hsplits, hp⟩
    obtain ⟨heq, -, -⟩ | ⟨rest, rfl, hrest⟩ := splits_cons_iff.mp hsplits
    · exact absurd heq hmark
    · obtain ⟨hcondition, hq⟩ := (hstep rest back).mp hp
      exact ⟨hcondition, rest, back, hrest, hq⟩
  · rintro ⟨hcondition, front, back, hsplits, hq⟩
    exact ⟨arg :: front, back, splits_cons_iff.mpr (.inr ⟨front, rfl, hsplits⟩),
      (hstep front back).mpr ⟨hcondition, hq⟩⟩

/-- With nothing left to come, a name must have been seen. -/
theorem completes_nil_iff :
    Completes found json [] [] invocation ↔
      found.map (fun file => Invocation.mk file json) = some invocation := by
  obtain ⟨file, asked⟩ := invocation
  constructor
  · rintro ⟨-, hjson, hnames, -⟩
    obtain rfl : found = some file := by
      cases found with
      | none => simp at hnames
      | some name => simpa using hnames
    obtain rfl : json = asked := by cases json <;> cases asked <;> simp at hjson ⊢
    rfl
  · intro h
    obtain ⟨name, rfl, heq⟩ := Option.map_eq_some_iff.mp h
    obtain ⟨rfl, rfl⟩ := Invocation.mk.inj heq
    exact ⟨by simp, by simp, by simp, by simp⟩

/-- An option is the one for JSON, and it has not been seen before. -/
theorem completes_option_iff (h : isOption arg = true) :
    Completes found json (arg :: front) back invocation ↔
      (arg = "--json" ∧ json = false) ∧ Completes found true front back invocation := by
  constructor
  · rintro ⟨hoption, hjson, hnames, hempty⟩
    obtain rfl := hoption arg List.mem_cons_self h
    rw [List.count_cons_self] at hjson
    -- if the option had been seen, it would be there twice
    have hle := invocation.json.toNat_le
    obtain rfl : json = false := by
      cases json with
      | false => rfl
      | true =>
        rw [Bool.toNat_true] at hjson
        omega
    refine ⟨⟨rfl, rfl⟩, (List.forall_mem_cons.mp hoption).2, ?_, by simpa using hnames,
      (List.forall_mem_cons.mp hempty).2⟩
    rw [Bool.toNat_false] at hjson
    rw [Bool.toNat_true]
    omega
  · rintro ⟨⟨rfl, rfl⟩, hoption, hjson, hnames, hempty⟩
    refine ⟨List.forall_mem_cons.mpr ⟨fun _ => rfl, hoption⟩, ?_, by simpa using hnames,
      List.forall_mem_cons.mpr ⟨by decide, hempty⟩⟩
    rw [Bool.toNat_true] at hjson
    rw [List.count_cons_self, Bool.toNat_false]
    omega

/-- A name is the first one if it is the only one. -/
theorem names_cons_iff {names : List String} {file : String} :
    found.toList ++ arg :: names = [file] ↔
      found = none ∧ (some arg).toList ++ names = [file] := by
  cases found <;> simp

/-- In front of the mark a name is no option. -/
theorem completes_front_iff (h : isOption arg = false) :
    Completes found json (arg :: front) back invocation ↔
      (arg ≠ "" ∧ found = none) ∧ Completes (some arg) json front back invocation := by
  have hne : arg ≠ "--json" := by
    rintro rfl
    exact absurd h (by decide)
  have hnames : found.toList ++ ((arg :: front).filter (· ≠ "--json") ++ back) =
        [invocation.file] ↔ found = none ∧
          (some arg).toList ++ (front.filter (· ≠ "--json") ++ back) = [invocation.file] := by
    rw [List.filter_cons_of_pos (by simpa using hne), List.cons_append, names_cons_iff]
  constructor
  · rintro ⟨hoption, hjson, hfile, hempty⟩
    obtain ⟨hfirst, hempty⟩ := List.forall_mem_cons.mp hempty
    obtain ⟨hnone, hfile⟩ := hnames.mp hfile
    rw [List.count_cons_of_ne hne] at hjson
    exact ⟨⟨hfirst, hnone⟩, (List.forall_mem_cons.mp hoption).2, hjson, hfile, hempty⟩
  · rintro ⟨⟨hfirst, hnone⟩, hoption, hjson, hfile, hempty⟩
    refine ⟨List.forall_mem_cons.mpr ⟨fun heq => ?_, hoption⟩, ?_, hnames.mpr ⟨hnone, hfile⟩,
      List.forall_mem_cons.mpr ⟨hfirst, hempty⟩⟩
    · rw [h] at heq
      cases heq
    · rwa [List.count_cons_of_ne hne]

/-- Behind the mark any argument is a name. -/
theorem completes_back_iff :
    Completes found json [] (arg :: back) invocation ↔
      (arg ≠ "" ∧ found = none) ∧ Completes (some arg) json [] back invocation := by
  constructor
  · rintro ⟨hoption, hjson, hnames, hempty⟩
    obtain ⟨hfirst, hempty⟩ := List.forall_mem_cons.mp hempty
    obtain ⟨hnone, hnames⟩ := names_cons_iff.mp hnames
    exact ⟨⟨hfirst, hnone⟩, hoption, hjson, hnames, hempty⟩
  · rintro ⟨⟨hfirst, hnone⟩, hoption, hjson, hnames, hempty⟩
    exact ⟨hoption, hjson, names_cons_iff.mpr ⟨hnone, hnames⟩,
      List.forall_mem_cons.mpr ⟨hfirst, hempty⟩⟩

end Completes

/-! ### Going through the arguments -/

section Steps

variable {found : Option String} {json namesOnly : Bool} {arg : String} {args : List String}
  {invocation : Invocation}

/-- At the mark. -/
theorem ofArgsFrom_mark :
    ofArgsFrom ⟨found, json, false⟩ ("--" :: args) = ofArgsFrom ⟨found, json, true⟩ args :=
  rfl

/-- At an option. -/
theorem ofArgsFrom_option (h : isOption arg = true) (hmark : arg ≠ "--") :
    ofArgsFrom ⟨found, json, false⟩ (arg :: args) =
      if arg = "--json" ∧ json = false then ofArgsFrom ⟨found, true, false⟩ args else none := by
  rw [ofArgsFrom]
  simp [h, hmark]

/-- At a name, on either side of the mark. -/
theorem ofArgsFrom_name (h : namesOnly = true ∨ isOption arg = false) :
    ofArgsFrom ⟨found, json, namesOnly⟩ (arg :: args) =
      if arg ≠ "" ∧ found = none then ofArgsFrom ⟨some arg, json, namesOnly⟩ args else none := by
  rw [ofArgsFrom]
  rcases h with rfl | h
  · simp
  · simp [h]

/-- **What the program makes of the arguments behind the mark.** -/
theorem ofArgsFrom_names_eq_some_iff :
    ofArgsFrom ⟨found, json, true⟩ args = some invocation ↔
      Completes found json [] args invocation := by
  induction args generalizing found with
  | nil => rw [completes_nil_iff, ofArgsFrom]
  | cons arg args ih =>
    rw [completes_back_iff, ofArgsFrom_name (.inl rfl), Option.ite_none_right_eq_some, ih]

/-- **What the program makes of the arguments up to the mark**, and of all, if there is none. -/
theorem ofArgsFrom_eq_some_iff :
    ofArgsFrom ⟨found, json, false⟩ args = some invocation ↔
      ∃ front back, Splits args front back ∧ Completes found json front back invocation := by
  induction args generalizing found json with
  | nil =>
    rw [ofArgsFrom, ← completes_nil_iff]
    simp [Splits]
  | cons arg args ih =>
    by_cases hmark : arg = "--"
    · subst hmark
      rw [ofArgsFrom_mark, ofArgsFrom_names_eq_some_iff]
      constructor
      · intro hcompletes
        exact ⟨[], args, .inr rfl, hcompletes⟩
      · rintro ⟨front, back, hsplits, hcompletes⟩
        obtain ⟨-, rfl, rfl⟩ | ⟨rest, rfl, -⟩ := splits_cons_iff.mp hsplits
        · exact hcompletes
        · -- the mark is an option by its looks
          exact absurd ((completes_option_iff rfl).mp hcompletes).1.1 (by decide)
    · cases harg : isOption arg with
      | true =>
        rw [ofArgsFrom_option harg hmark, Option.ite_none_right_eq_some, ih,
          exists_splits_cons_iff hmark fun _ _ => completes_option_iff harg]
      | false =>
        rw [ofArgsFrom_name (.inr harg), Option.ite_none_right_eq_some, ih,
          exists_splits_cons_iff hmark fun _ _ => completes_front_iff harg]

/-- **The program takes the legal lists of arguments**, for what they call for, and no others. -/
theorem ofArgs?_eq_some_iff : ofArgs? args = some invocation ↔ Legal args invocation :=
  ofArgsFrom_eq_some_iff

end Steps

/-! ### Runs -/

section Runs

variable {path : String} {json : Bool} {got : Except FileError ByteArray}

/-- A run evaluates the file that it was called for, as the library does. -/
theorem evaluate_eq :
    (Invocation.mk path json).evaluate got =
      RequestFile.evaluateLoaded (RequestFile.load path got) :=
  rfl

/-- **A run without outcomes** prints nothing. It reports the error that the library ends with, or it
is given up, as the evaluation was. -/
theorem run_of_error {failure : RequestFile.Failure}
    (h : (RequestFile.evaluateLoaded (RequestFile.load path got)).value = .error failure) :
    ((Invocation.mk path json).run got).output = "" ∧
      ((∃ trouble, failure = .trouble trouble ∧
          ((Invocation.mk path json).run got).exitCode = 1 ∧
          ((Invocation.mk path json).run got).errorOutput = trouble.report path) ∨
        (failure = .noParameters ∧ ((Invocation.mk path json).run got).exitCode = 101)) := by
  rw [run, evaluate_eq, h]
  cases failure with
  | trouble trouble => exact ⟨rfl, .inl ⟨trouble, rfl, rfl, rfl⟩⟩
  | noParameters => exact ⟨rfl, .inr ⟨rfl, rfl⟩⟩

/-- Whether outcomes are printed as JSON bears on nothing but how they are printed. -/
theorem exitCode_and_errorOutput_run (json' : Bool) :
    ((Invocation.mk path json').run got).exitCode = ((Invocation.mk path json).run got).exitCode ∧
      ((Invocation.mk path json').run got).errorOutput =
        ((Invocation.mk path json).run got).errorOutput := by
  rw [run, run, evaluate_eq, evaluate_eq]
  rcases (RequestFile.evaluateLoaded (RequestFile.load path got)).value with (_ | _) | _ <;>
    exact ⟨rfl, rfl⟩

end Runs

end Invocation

/-- A call runs what it calls for. -/
theorem Run.ofArgs_of_legal {args : List String} {invocation : Invocation}
    (h : Invocation.Legal args invocation) (files : FileSet) :
    ofArgs args files = invocation.run (files.read invocation.file) := by
  rw [ofArgs, Invocation.ofArgs?_eq_some_iff.mpr h]

/-- Two request files. The second request of the first has a parameter too many, and all requests of
the second have outcomes. -/
def Run.twoFiles : FileSet :=
  ⟨[("requests.json", .file (
      "[\x7b\"op\": \"list\", \"name\": \"int\"\x7d,\n" ++
      " \x7b\"op\": \"callable\", \"base\": \"Callable\", \"params\":\n" ++
      "  [\x7b\"args\": []\x7d, \x7b\"type\": \"nothing\"\x7d, \x7b\"type\": \"anything\"\x7d]\x7d]\n"
        ).toUTF8),
    ("types.json", .file (
      "[\x7b\"op\": \"list\", \"name\": \"int\"\x7d,\n" ++
      " \x7b\"op\": \"is_any\", \"value\": \"anything\"\x7d]\n").toUTF8)]⟩

/-- **A run prints all outcomes or nothing, and agrees with the library.** With any legal arguments
it ends with exit code zero if the file can be read, its bytes are text, the text is that of a
request file and each request of it has an outcome, and only then. It has then printed the
outcomes, in order and each on a line of its own, and there is nothing on standard error. In all
other cases it has printed nothing, however many requests have outcomes: it reports the error that
the library ends with and leaves with code one, or it was given up together with the evaluation.
Whether JSON was asked for makes no difference to the exit code and to standard error. -/
theorem Run.all_or_nothing {args : List String} {path : String} {json : Bool}
    (hargs : Invocation.Legal args ⟨path, json⟩) (files : FileSet) :
    ((ofArgs args files).exitCode = 0 ↔
      ∃ bytes source file, files.read path = .ok bytes ∧
        String.fromUTF8? bytes = some source ∧
        (RequestFile.parse path source).value = .ok file ∧
        ∀ entry ∈ file.entries, ∃ outcome, entry.request.evaluate.value = .ok outcome) ∧
    ((ofArgs args files).exitCode = 0 →
      ∃ file outcomes, (RequestFile.load path (files.read path)).value = .ok file ∧
        List.Forall₂ (fun (entry : Entry) outcome => entry.request.evaluate.value = .ok outcome)
          file.entries outcomes ∧
        (ofArgs args files).errorOutput = "" ∧
        (ofArgs args files).output = String.join (outcomes.map fun outcome =>
          (if json then outcome.toJson.compact else outcome.text) ++ "\n")) ∧
    ((ofArgs args files).exitCode ≠ 0 → (ofArgs args files).output = "" ∧
      ∃ failure, (RequestFile.evaluateLoaded
          (RequestFile.load path (files.read path))).value = .error failure ∧
        ((∃ trouble, failure = .trouble trouble ∧ (ofArgs args files).exitCode = 1 ∧
            (ofArgs args files).errorOutput = trouble.report path) ∨
          (failure = .noParameters ∧ (ofArgs args files).exitCode = 101))) ∧
    ∀ args' json', Invocation.Legal args' ⟨path, json'⟩ →
      (ofArgs args' files).exitCode = (ofArgs args files).exitCode ∧
        (ofArgs args' files).errorOutput = (ofArgs args files).errorOutput := by
  rw [ofArgs_of_legal hargs]
  refine ⟨?_, fun hexit => ?_, fun hexit => ?_, fun args' json' hargs' => ?_⟩
  · rw [Invocation.exitCode_run_eq_zero_iff]
    simp only [Invocation.evaluate_eq_ok_iff, RequestFile.load_eq_ok_iff]
    constructor
    · rintro ⟨outcomes, file, ⟨bytes, source, hbytes, hsource, hparse⟩, houtcomes⟩
      exact ⟨bytes, source, file, hbytes, hsource, hparse,
        RequestFile.exists_evaluate_iff.mp ⟨outcomes, houtcomes⟩⟩
    · rintro ⟨bytes, source, file, hbytes, hsource, hparse, hall⟩
      obtain ⟨outcomes, houtcomes⟩ := RequestFile.exists_evaluate_iff.mpr hall
      exact ⟨outcomes, file, ⟨bytes, source, hbytes, hsource, hparse⟩, houtcomes⟩
  · obtain ⟨outcomes, hevaluate⟩ := Invocation.exitCode_run_eq_zero_iff.mp hexit
    obtain ⟨file, hload, houtcomes⟩ := Invocation.evaluate_eq_ok_iff.mp hevaluate
    refine ⟨file, outcomes, hload, RequestFile.evaluateFrom_eq_ok_iff.mp houtcomes, ?_,
      Invocation.output_run hevaluate⟩
    rw [Invocation.run, hevaluate]
    rfl
  · cases hvalue : (RequestFile.evaluateLoaded (RequestFile.load path (files.read path))).value with
    | ok outcomes =>
      have hevaluate : ((Invocation.mk path json).evaluate (files.read path)).value = .ok outcomes :=
        hvalue
      exact absurd (Invocation.exitCode_run_eq_zero_iff.mpr ⟨outcomes, hevaluate⟩) hexit
    | error failure =>
      obtain ⟨houtput, hfailure⟩ := Invocation.run_of_error hvalue
      exact ⟨houtput, failure, rfl, hfailure⟩
  · rw [ofArgs_of_legal hargs']
    exact Invocation.exitCode_and_errorOutput_run json'

/-- Calls with and without JSON. Where the second request is rejected, the outcome of the first is not
printed. -/
theorem Run.all_or_nothing_two :
    ((ofArgs ["--json", "--", "requests.json"] twoFiles).exitCode = 1 ∧
      (ofArgs ["--json", "--", "requests.json"] twoFiles).output = "" ∧
      (ofArgs ["requests.json"] twoFiles).exitCode = 1 ∧
      (ofArgs ["requests.json"] twoFiles).errorOutput =
        "TypeError: Expected 2 parameters to Callable, got 3\n  --> requests.json, request #2\n") ∧
    (ofArgs ["types.json"] twoFiles).exitCode = 0 ∧
      (ofArgs ["types.json"] twoFiles).errorOutput = "" ∧
      (ofArgs ["types.json"] twoFiles).output = "typing.List[int]\ntrue\n" ∧
      (ofArgs ["types.json", "--json"] twoFiles).exitCode = 0 ∧
      (ofArgs ["types.json", "--json"] twoFiles).errorOutput = "" ∧
      (ofArgs ["types.json", "--json"] twoFiles).output = "\x7b\"generic\":\x7b" ++
        "\"base\":\"typing.List\",\"params\":[\x7b\"named\":\"int\"\x7d]\x7d\x7d\ntrue\n" := by
  have hlegal {path : String} {json : Bool} {args : List String}
      (h : Invocation.ofArgs? args = some ⟨path, json⟩) : Invocation.Legal args ⟨path, json⟩ :=
    Invocation.ofArgs?_eq_some_iff.mp h
  constructor
  · have hrun : ofArgs ["--json", "--", "requests.json"] twoFiles = .failed
        "TypeError: Expected 2 parameters to Callable, got 3\n  --> requests.json, request #2\n" := by
      decide +kernel
    have hargs : Invocation.Legal ["--json", "--", "requests.json"] ⟨"requests.json", true⟩ :=
      hlegal (by decide)
    obtain ⟨-, -, hfailed, hjson⟩ := all_or_nothing hargs twoFiles
    obtain ⟨hexit, herror⟩ := hjson ["requests.json"] false (hlegal (by decide))
    rw [hrun] at hfailed hexit herror ⊢
    exact ⟨rfl, (hfailed (by decide)).1, hexit, herror⟩
  · have hrun : ofArgs ["types.json"] twoFiles = .completed "typing.List[int]\ntrue\n" := by
      decide +kernel
    have hargs : Invocation.Legal ["types.json"] ⟨"types.json", false⟩ := hlegal (by decide)
    obtain ⟨-, hprinted, -, hjson⟩ := all_or_nothing hargs twoFiles
    obtain ⟨hexit, herror⟩ := hjson ["types.json", "--json"] true (hlegal (by decide))
    rw [hrun] at hprinted hexit herror ⊢
    obtain ⟨-, -, -, -, hempty, -⟩ := hprinted rfl
    exact ⟨rfl, hempty, rfl, hexit, herror, by decide +kernel⟩

end TypeExpr
