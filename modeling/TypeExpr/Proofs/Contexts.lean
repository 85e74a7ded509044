import TypeExpr.Proofs.Report
import TypeExpr.Trouble

/-!
# Contexts in a report

A context is for whoever handles the trouble in a program. It is put in front of the chain, and the
report looks through the chain twice: from the front for a located error, and if there is none, at
the end for the last link. A context is no located error, and as a chain is never empty, a link in
front of it is never the last. So neither search notices a context, and by induction neither notices
any number of them.

What a report does notice is what an error is put down to: the request that was named last.
-/

namespace TypeExpr

/-- **The last request that an error is put down to is the one it has.** -/
theorem LocatedError.foldl_forRequest (requests : List Nat) (error : LocatedError) :
    requests.foldl forRequest error =
      { error with request := requests.getLast?.or error.request } := by
  induction requests generalizing error with
  | nil => rfl
  | cons request requests ih =>
    rw [List.foldl_cons, ih, List.getLast?_cons]
    cases requests.getLast? <;> rfl

namespace Trouble

variable {trouble : Trouble} {cause : Cause}

/-! ### One context -/

theorem links_inContext (trouble : Trouble) (context : String) :
    (trouble.inContext context).links = .context context :: trouble.links :=
  rfl

theorem links_ne_nil (trouble : Trouble) : trouble.links ≠ [] :=
  List.append_ne_nil_of_right_ne_nil _ (List.cons_ne_nil _ _)

theorem chain_inContext (trouble : Trouble) (context : String) :
    (trouble.inContext context).chain = context :: trouble.chain :=
  rfl

/-- A context is passed over in the search for a located error. -/
theorem findSome?_links_inContext (trouble : Trouble) (context : String) :
    (trouble.inContext context).links.findSome? Link.located? =
      trouble.links.findSome? Link.located? :=
  List.findSome?_cons_of_isNone rfl

/-- A context is not the last link. -/
theorem getLast?_links_inContext (trouble : Trouble) (context : String) :
    (trouble.inContext context).links.getLast? = trouble.links.getLast? := by
  rw [links_inContext, List.getLast?_cons, List.getLast?_eq_some_getLast trouble.links_ne_nil]
  rfl

/-- **A context changes nothing in a report.** -/
theorem report_inContext (trouble : Trouble) (context path : String) :
    (trouble.inContext context).report path = trouble.report path := by
  rw [report, report, findSome?_links_inContext, getLast?_links_inContext]

/-! ### Any number of contexts -/

theorem chain_foldl_inContext (contexts : List String) (trouble : Trouble) :
    (contexts.foldl inContext trouble).chain = contexts.reverse ++ trouble.chain := by
  induction contexts generalizing trouble with
  | nil => rfl
  | cons context contexts ih =>
    rw [List.foldl_cons, ih, chain_inContext, List.reverse_cons, List.append_assoc,
      List.singleton_append]

theorem report_foldl_inContext (contexts : List String) (trouble : Trouble) (path : String) :
    (contexts.foldl inContext trouble).report path = trouble.report path := by
  induction contexts generalizing trouble with
  | nil => rfl
  | cons context contexts ih => rw [List.foldl_cons, ih, report_inContext]

/-- A located error is found, and has its own place. -/
theorem report_ofCause_located (error : LocatedError) (path : String) :
    (ofCause (.located error)).report path = error.report :=
  rfl

/-- Any other cause is the last link, and is reported at the file that was asked for. -/
theorem report_ofCause (h : ∀ error, cause ≠ .located error) (path : String) :
    (ofCause cause).report path = "error: " ++ cause.text ++ "\n  --> " ++ path ++ "\n" := by
  cases cause with
  | located error => exact absurd rfl (h error)
  | read | file | plain => rfl

/-- **Contexts neither hide nor change what is reported.** A callable error that was located, then put
down to requests and then wrapped in contexts has the report of the located error alone, whatever
file was asked for. The report has the category and the message of the error, then the place with the
request that was named last, and under them what is shown of the source. A plain error has the report
with its own words at the file that was asked for. The chain has the contexts in it from the last to
the first, and then the cause. -/
theorem report_wrapped (contexts : List String) :
    (∀ (error : CallableError) (file : String) (line : Option Nat) (sourceLine : Option String)
        (requests : List Nat), ∃ located : LocatedError,
      located = requests.foldl LocatedError.forRequest (error.located file line sourceLine) ∧
      located = ⟨error.category, error.message, file, line, requests.getLast?, sourceLine⟩ ∧
      located.report = error.category.text ++ ": " ++ error.message ++ "\n  --> " ++
        (file ++ LocatedError.lineMark line ++ LocatedError.requestMark requests.getLast?) ++ "\n" ++
          located.shownSource ∧
      ∀ path other,
        (contexts.foldl inContext (ofCause (.located located))).report path = located.report ∧
        (ofCause (.located located)).report other = located.report) ∧
    (∀ message path, (contexts.foldl inContext (ofCause (.plain message))).report path =
      "error: " ++ message ++ "\n  --> " ++ path ++ "\n") ∧
    ∀ cause, (contexts.foldl inContext (ofCause cause)).chain = contexts.reverse ++ [cause.text] ∧
      (contexts.foldl inContext (ofCause cause)).chain.length = contexts.length + 1 := by
  refine ⟨fun error file line sourceLine requests => ?_, fun message path => ?_, fun cause => ?_⟩
  · have hlocated : requests.foldl LocatedError.forRequest (error.located file line sourceLine) =
        ⟨error.category, error.message, file, line, requests.getLast?, sourceLine⟩ := by
      rw [LocatedError.foldl_forRequest, CallableError.located, Option.or_none]
    refine ⟨_, hlocated.symm, rfl, ?_, fun path other => ⟨?_, report_ofCause_located _ other⟩⟩
    · rw [LocatedError.report_eq_append, LocatedError.location_eq]
    · rw [report_foldl_inContext, report_ofCause_located]
  · rw [report_foldl_inContext]
    exact report_ofCause (fun _ h => by cases h) path
  · have hchain : (contexts.foldl inContext (ofCause cause)).chain =
        contexts.reverse ++ [cause.text] := chain_foldl_inContext contexts (ofCause cause)
    refine ⟨hchain, ?_⟩
    rw [hchain, List.length_append, List.length_reverse, List.length_singleton]

end Trouble

end TypeExpr
