import TypeExpr.Proofs.FirstFailure
import TypeExpr.Proofs.Language

/-!
# Files without an answer

The node for a callable is built from one parameter at least. This is a precondition: it is left
to whoever asks for the node, and a request that breaks it has no outcome and no error either. It
ends whatever it was part of.

The reader of request files does not rule it out. What it refuses is a *node* that is a callable
without parameters, at any depth. The parameters of a *request* for a callable are a list like any
other list, and an empty one is read. So a file may be read, and then have no answer, neither
outcomes nor an error that is put down to a request.

When that happens is a matter of which request comes first. An earlier request that is rejected
ends the evaluation before the other is reached, so a file is answered if and only if each of its
requests for a callable without parameters stands behind one that is rejected
(`RequestFile.answered_iff`).
-/

namespace TypeExpr

/-- **The precondition of building a callable** is broken by a request for one without
parameters. -/
theorem Request.evaluate_eq_noParameters_iff {request : Request} :
    request.evaluate.value = .error .noParameters ↔ ∃ base, request = .callable base [] := by
  constructor
  · intro h
    cases request with
    | callable base params =>
      cases params with
      | nil => exact ⟨base, rfl⟩
      | cons first more =>
        -- a parameter is there, and then what can go wrong is for the builder to say
        change ofBuilt (Callable.build base first more).value = _ at h
        cases hbuilt : (Callable.build base first more).value <;> simp [hbuilt, ofBuilt] at h
    | _ => cases h
  · rintro ⟨base, rfl⟩
    rfl

namespace RequestFile

/-- **A file is answered** if its evaluation ends with outcomes, or with the error of the first
request that fails, put down to its place. -/
def Answered (file : RequestFile) : Prop :=
  (∃ outcomes, file.evaluate.value = .ok outcomes) ∨
    ∃ k entry error, file.FailsAt k entry (.rejected error) ∧
      file.evaluate.value = .error (.trouble (.ofCause (.located (file.locate k entry error))))

/-- An evaluation that is given up gives no answer. -/
theorem Answered.ne_noParameters {file : RequestFile} (h : file.Answered) :
    file.evaluate.value ≠ .error .noParameters := by
  rcases h with ⟨outcomes, hvalue⟩ | ⟨k, entry, error, -, hvalue⟩ <;>
    exact fun hgiven => by cases hvalue.symm.trans hgiven

/-- **A file is answered, or its first failure is a request for a callable without parameters.** -/
theorem answered_or_failsAt (file : RequestFile) :
    file.Answered ∨ ∃ k base line, file.FailsAt k ⟨.callable base [], line⟩ .noParameters := by
  rcases file.forall_or_exists_failsAt with hall | ⟨k, entry, failure, hfails⟩
  · exact .inl (.inl (exists_evaluate_iff.mpr hall))
  · cases failure with
    | rejected error => exact .inl (.inr ⟨k, entry, error, hfails, hfails.evaluate_eq.1⟩)
    | noParameters =>
      obtain ⟨request, line⟩ := entry
      obtain ⟨base, rfl⟩ := Request.evaluate_eq_noParameters_iff.mp hfails.fails
      exact .inr ⟨k, base, line, hfails⟩

/-- In a file that is answered, a request for a callable without parameters is not reached: an
earlier request is rejected. -/
theorem Answered.exists_rejected {file : RequestFile} (h : file.Answered) {k : Nat} {base : String}
    {line : Option Nat} (hk : file.entries[k]? = some ⟨.callable base [], line⟩) :
    ∃ earlier ∈ file.entries.take k, ∃ error,
      earlier.request.evaluate.value = .error (.rejected error) := by
  have hnone {outcome : Outcome} : (Request.callable base []).evaluate.value ≠ .ok outcome := nofun
  rcases h with houtcomes | ⟨j, entry, error, hfails, -⟩
  · obtain ⟨outcome, houtcome⟩ :=
      exists_evaluate_iff.mp houtcomes _ (List.mem_of_getElem? hk)
    exact absurd houtcome hnone
  · rcases Nat.lt_trichotomy j k with hlt | rfl | hlt
    · exact ⟨entry, List.mem_of_getElem? (List.getElem?_take_of_lt hlt ▸ hfails.entry_eq), error,
        hfails.fails⟩
    · obtain rfl := Option.some.inj (hk.symm.trans hfails.entry_eq)
      cases hfails.fails
    · obtain ⟨outcome, houtcome⟩ :=
        hfails.before _ (List.mem_of_getElem? (List.getElem?_take_of_lt hlt ▸ hk))
      exact absurd houtcome hnone

/-- **Which files are answered**: those in which every request for a callable without parameters
stands behind a request that is rejected. The evaluation of any other is given up. -/
theorem answered_iff (file : RequestFile) :
    (file.Answered ↔
      ∀ k base line, file.entries[k]? = some ⟨.callable base [], line⟩ →
        ∃ earlier ∈ file.entries.take k, ∃ error,
          earlier.request.evaluate.value = .error (.rejected error)) ∧
    (¬file.Answered ↔ file.evaluate.value = .error .noParameters) := by
  have hcases := file.answered_or_failsAt
  constructor
  · refine ⟨fun h k base line hk => h.exists_rejected hk, fun h => hcases.resolve_right ?_⟩
    rintro ⟨k, base, line, hfails⟩
    obtain ⟨earlier, hmem, error, herror⟩ := h k base line hfails.entry_eq
    obtain ⟨outcome, houtcome⟩ := hfails.before earlier hmem
    cases herror.symm.trans houtcome
  · refine ⟨fun h => ?_, fun hgiven h => h.ne_noParameters hgiven⟩
    obtain ⟨k, base, line, hfails⟩ := hcases.resolve_left h
    exact hfails.evaluate_eq.1

/-- A file is read whose only request asks for a callable without parameters, and its evaluation is
given up. -/
theorem parsed_not_answered :
    ∃ file, (parse "requests.json" (Json.array [.object [("op", .text "callable"),
        ("base", .text "C"), ("params", .array [])]]).compact).value = .ok file ∧
      file.evaluate.value = .error .noParameters ∧ ¬file.Answered := by
  have hentry : Entry.Denotes
      (.object [("op", .text "callable"), ("base", .text "C"), ("params", .array [])])
      ⟨.callable "C" [], none⟩ :=
    .mk rfl (@Op.Denotes.name .callable) ⟨rfl, [], rfl, .nil⟩ .absent
  have hlimit : (Json.array [.object [("op", .text "callable"), ("base", .text "C"),
      ("params", .array [])]]).Admissible Json.nestingLimit := ⟨rfl, by decide⟩
  have hread := (readEntries_eq_ok_iff_forall₂ (Json.says_compact _) hlimit).mpr
    (.cons hentry .nil)
  exact ⟨_, parse_of_readEntries hread "requests.json", rfl,
    fun h => h.ne_noParameters rfl⟩

end RequestFile

end TypeExpr
