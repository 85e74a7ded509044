import TypeExpr.Proofs.Decode.Faults

/-!
# Bad lines

Of all members of an entry the line number alone is looked at while the entry is being read. A
second one is refused at its key, and a bad one at its first token: a bracket, a string, a truth
value, or a numeral that is no natural number of 64 bits. Whatever stands behind that is not read,
and the other members have not been looked at, except that they were JSON.

So there is a condition on the tokens of an entry that tells when it is refused for its line. Some
members are passed, and then one of the two comes (`Entry.EndsInBadLine`). The condition and the
reader go along the members in the same way, and so do the two directions of the proof that they
agree (`Entry.takeLine_eq_misshapen_iff`): one follows the reader, the other the rules.
-/

namespace TypeExpr

open Json (Draft Token)

/-! ### The line number -/

/-- The tokens that no line number begins with. -/
def Json.Token.SpoilsLine : Token → Prop
  | numeral n => ∀ line, n.natural? = some line → lineLimit ≤ line
  | text _ | bool _ | openArray | openObject => True
  | _ => False

theorem lineOfDraft_numeral_eq_misshapen_iff {n : Json.Numeral} :
    lineOfDraft (.numeral n) = .error .misshapen ↔ (Token.numeral n).SpoilsLine := by
  rw [lineOfDraft, Token.SpoilsLine]
  cases n.natural? with
  | none => simp
  | some line => simp

/-- **A bad line is bad from its first token on.** -/
theorem lineOfDraft_read_eq_misshapen_iff {n : Nat} {ts : List Token} :
    lineOfDraft ((Draft.reader (n + 1)).read ts).found = .error .misshapen ↔
      ∃ t rest, ts = t :: rest ∧ t.SpoilsLine := by
  rcases ts with _ | ⟨t, rest⟩
  · refine iff_of_false (fun h => by cases h) ?_
    rintro ⟨t, rest, h, -⟩
    cases h
  · have hspoils : (∃ u us, t :: rest = u :: us ∧ u.SpoilsLine) ↔ t.SpoilsLine := by simp
    rw [hspoils]
    cases t with
    | numeral m => exact lineOfDraft_numeral_eq_misshapen_iff
    | openArray =>
      refine iff_of_true ?_ trivial
      by_cases hclose : ∃ us, rest = .closeArray :: us
      · obtain ⟨us, rfl⟩ := hclose
        rfl
      · rw [Draft.read_openArray fun us h => hclose ⟨us, h⟩]
        rfl
    | openObject =>
      refine iff_of_true ?_ trivial
      by_cases hclose : ∃ us, rest = .closeObject :: us
      · obtain ⟨us, rfl⟩ := hclose
        rfl
      · rw [Draft.read_openObject fun us h => hclose ⟨us, h⟩]
        rfl
    | text | bool => exact iff_of_true rfl trivial
    | _ => exact iff_of_false (fun h => by cases h) id

theorem eq_of_lineOfDraft_eq_error {d : Draft} {error : ReadError}
    (h : lineOfDraft d = .error error) : error = .malformed ∨ error = .misshapen := by
  unfold lineOfDraft at h
  split at h
  · cases h
  · split at h
    · split at h
      · cases h
      · exact .inr (Except.error.inj h).symm
    · exact .inr (Except.error.inj h).symm
  · obtain rfl := Except.error.inj h
    unfold Json.Draft.misfit
    split
    · exact .inl rfl
    · exact .inr rfl

/-! ### Members -/

namespace Entry

/-- **The members of an entry up to a bad line**, given whether there has been a line before: some
members, with a comma behind each, and then either the key of a second line, or the key of a line
with a token behind it that no line number begins with. -/
inductive EndsInBadLine (n : Nat) : Bool → List Token → Prop
  | repeated : EndsInBadLine n true [.text "line"]
  | bad {found : Bool} {t : Token} : t.SpoilsLine →
    EndsInBadLine n found [.text "line", .colon, t]
  | step {found : Bool} {key : String} {value : Json} {ts : List Token} : value.nesting ≤ n →
    EndsInBadLine n (found || key = "line") ts →
      EndsInBadLine n found (.text key :: .colon :: (value.tokens ++ .comma :: ts))

section Members

variable {n : Nat}

/-- **One step of looking for the line**: when there is a fault, it is in the line here, or further
on, or this is where the text is no JSON. -/
theorem takeLine_cons_cases {found : Option (Option Nat)} {key : String} {d : Draft}
    {more : List (String × Draft)} {error : ReadError}
    (h : takeLine found ((key, d) :: more) = .error error) :
    (key = "line" ∧
      (found.isSome = true ∧ error = .misshapen ∨ lineOfDraft d = .error error)) ∨
    (∃ next : Option (Option Nat), next.isSome = (found.isSome || key = "line") ∧
      takeLine next more = .error error) ∨
    error = .malformed := by
  rw [takeLine] at h
  split at h
  · rename_i hkey
    split at h
    · rename_i hfound
      exact .inl ⟨hkey, .inl ⟨hfound, (Except.error.inj h).symm⟩⟩
    · cases hline : lineOfDraft d with
      | error e =>
        rw [hline] at h
        obtain rfl := Except.error.inj h
        exact .inl ⟨hkey, .inr rfl⟩
      | ok line =>
        rw [hline] at h
        exact .inr (.inl ⟨some line, by simp [hkey], h⟩)
  · rename_i hkey
    split at h
    · refine .inr (.inl ⟨found, by simp [hkey], ?_⟩)
      cases hmore : takeLine found more with
      | error e =>
        rw [hmore] at h
        exact congrArg _ (Except.error.inj h)
      | ok got =>
        rw [hmore] at h
        cases h
    · exact .inr (.inr (Except.error.inj h).symm)

/-- There are two faults that are found on the way to the line. -/
theorem eq_of_takeLine_eq_error {found : Option (Option Nat)} {members : List (String × Draft)}
    {error : ReadError} (h : takeLine found members = .error error) :
    error = .malformed ∨ error = .misshapen := by
  induction members generalizing found with
  | nil => cases h
  | cons member members ih =>
    rcases takeLine_cons_cases h with ⟨-, ⟨-, rfl⟩ | hline⟩ | ⟨next, -, hmore⟩ | rfl
    · exact .inr rfl
    · exact eq_of_lineOfDraft_eq_error hline
    · exact ih hmore
    · exact .inl rfl

/-- A bad line is refused when it is met. -/
theorem takeLine_of_endsInBadLine {b : Bool} {ts : List Token}
    (h : EndsInBadLine (n + 1) b ts) (more : List Token) (found : Option (Option Nat))
    (hfound : found.isSome = b) :
    takeLine found (Draft.members (Draft.reader (n + 1)) (ts ++ more)).found =
      .error .misshapen := by
  induction h generalizing found with
  | repeated =>
    obtain ⟨d, others, hmembers⟩ := Draft.exists_members_found (Draft.reader (n + 1)) "line" more
    rw [List.singleton_append, hmembers, takeLine, if_pos rfl, if_pos hfound]
  | @bad b t ht =>
    obtain ⟨others, hmembers⟩ :=
      Draft.exists_members_found_colon (Draft.reader (n + 1)) "line" (t :: more)
    have hbad : lineOfDraft ((Draft.reader (n + 1)).read (t :: more)).found = _ :=
      lineOfDraft_read_eq_misshapen_iff.mpr ⟨t, more, rfl, ht⟩
    change takeLine found
      (Draft.members (Draft.reader (n + 1)) (.text "line" :: .colon :: t :: more)).found = _
    rw [hmembers, takeLine, if_pos rfl]
    split
    · rfl
    · rw [hbad]
      rfl
  | @step b key value ts hn _ ih =>
    have hread : (Draft.reader (n + 1)).read (value.tokens ++ .comma :: (ts ++ more)) =
        ⟨value.draft, some (.comma :: (ts ++ more))⟩ :=
      Draft.read_eq_some_iff.mpr ⟨value, rfl, rfl, hn⟩
    rw [List.cons_append, List.cons_append, List.append_assoc, List.cons_append,
      Draft.members_of_comma hread, takeLine]
    by_cases hkey : key = "line"
    · rw [if_pos hkey]
      split
      · rfl
      · cases hline : lineOfDraft value.draft with
        | error e =>
          -- a line that is passed may be bad itself, and then it is refused even earlier
          rcases eq_of_lineOfDraft_eq_error hline with rfl | rfl
          · exact absurd hline (unbroken_lineOfDraft value)
          · rfl
        | ok line => exact ih (some line) (by simp [hkey])
    · rw [if_neg hkey, if_pos (Json.isWhole_draft value), ih found (by simp [hkey, hfound])]
      rfl

/-- What is refused for its line has a bad line in it. -/
theorem exists_endsInBadLine_of_takeLine {us : List Token} : ∀ {found : Option (Option Nat)},
    takeLine found (Draft.members (Draft.reader (n + 1)) us).found = .error .misshapen →
      ∃ ts more, us = ts ++ more ∧ EndsInBadLine (n + 1) found.isSome ts := by
  have hnil {found : Option (Option Nat)} : takeLine found [] ≠ .error .misshapen := by
    rw [takeLine]
    exact fun h => by cases h
  -- where the line is refused at once, the bad line stands at the front
  have hhere {found : Option (Option Nat)} {key : String} {vs : List Token} (hkey : key = "line")
      (hbad : found.isSome = true ∨
        lineOfDraft ((Draft.reader (n + 1)).read vs).found = .error .misshapen) :
      ∃ ts more, .text key :: .colon :: vs = ts ++ more ∧
        EndsInBadLine (n + 1) found.isSome ts := by
    subst hkey
    rcases hbad with hfound | hline
    · exact ⟨[.text "line"], .colon :: vs, rfl, hfound ▸ .repeated⟩
    · obtain ⟨t, rest, rfl, ht⟩ := lineOfDraft_read_eq_misshapen_iff.mp hline
      exact ⟨[.text "line", .colon, t], rest, rfl, .bad ht⟩
  have hlast {key : String} {vs : List Token} {d : Draft}
      (hd : ((Draft.reader (n + 1)).read vs).found = d) {found : Option (Option Nat)}
      (h : takeLine found [(key, d)] = .error .misshapen) :
      ∃ ts more, .text key :: .colon :: vs = ts ++ more ∧
        EndsInBadLine (n + 1) found.isSome ts := by
    rcases takeLine_cons_cases h with ⟨hkey, hbad⟩ | ⟨next, -, hmore⟩ | hbroken
    · exact hhere hkey (hd ▸ hbad.imp_left And.left)
    · exact absurd hmore hnil
    · cases hbroken
  fun_induction Draft.members (Draft.reader (n + 1)) us
  case case1 key vs d rest hread others ih =>
    intro found h
    have hd : ((Draft.reader (n + 1)).read vs).found = d := by rw [hread]
    rcases takeLine_cons_cases h with ⟨hkey, hbad⟩ | ⟨next, hnext, hmore⟩ | hbroken
    · exact hhere hkey (hd ▸ hbad.imp_left And.left)
    · obtain ⟨value, rfl, rfl, hn⟩ := Draft.read_eq_some_iff.mp hread
      obtain ⟨ts, more, rfl, hts⟩ := ih hmore
      refine ⟨_, more, ?_, .step hn (hnext ▸ hts)⟩
      simp only [List.cons_append, List.append_assoc]
    · cases hbroken
  case case2 key vs d rest hread => exact hlast (by rw [hread])
  case case3 key vs d rest _ _ hread => exact hlast (by rw [hread])
  case case4 key vs _ =>
    intro found h
    rcases takeLine_cons_cases h with ⟨rfl, ⟨hfound, -⟩ | hline⟩ | ⟨next, -, hmore⟩ | hbroken
    · exact ⟨[.text "line"], vs, rfl, hfound ▸ .repeated⟩
    · cases hline
    · exact absurd hmore hnil
    · cases hbroken
  case case5 => exact fun h => absurd h hnil

/-- **The members of an entry are refused for the line** if and only if they come to a bad line. -/
theorem takeLine_eq_misshapen_iff {us : List Token} {found : Option (Option Nat)} :
    takeLine found (Draft.members (Draft.reader (n + 1)) us).found = .error .misshapen ↔
      ∃ ts more, us = ts ++ more ∧ EndsInBadLine (n + 1) found.isSome ts := by
  refine ⟨exists_endsInBadLine_of_takeLine, ?_⟩
  rintro ⟨ts, more, rfl, hts⟩
  exact takeLine_of_endsInBadLine hts more found rfl

end Members

/-! ### Texts -/

section Rows

variable {n : Nat} {b : Bool} {ts : List Token}

theorem EndsInBadLine.apart (h : EndsInBadLine n b ts) : Token.Apart ts := by
  induction h with
  | repeated => exact List.isChain_singleton _
  | bad => exact (Token.apart_cons rfl).mpr ((Token.apart_cons rfl).mpr (List.isChain_singleton _))
  | @step _ _ value _ _ _ ih =>
    refine (Token.apart_cons rfl).mpr ((Token.apart_cons rfl).mpr ?_)
    refine (Token.apart_append ?_).mpr ⟨value.apart_tokens, (Token.apart_cons rfl).mpr ih⟩
    simp [Token.isBounded]

theorem EndsInBadLine.mem (h : EndsInBadLine n b ts) : .text "line" ∈ ts := by
  induction h with
  | repeated | bad => exact List.mem_cons_self
  | step _ _ ih => simp [ih]

theorem EndsInBadLine.isFaulty (h : EndsInBadLine n b ts) : ∀ t ∈ ts, t.isFaulty = false := by
  induction h with
  | repeated => simp [Token.isFaulty]
  | @bad _ t ht =>
    have hfaulty : t.isFaulty = false := by
      cases t <;> first | rfl | cases ht
    exact List.forall_mem_cons.mpr ⟨rfl, List.forall_mem_cons.mpr
      ⟨rfl, List.forall_mem_singleton.mpr hfaulty⟩⟩
  | @step _ _ value us _ _ ih =>
    simpa [Token.isFaulty, or_imp, forall_and] using ⟨value.isFaulty_tokens, ih⟩

end Rows

end Entry

end TypeExpr
