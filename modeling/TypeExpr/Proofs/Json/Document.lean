import TypeExpr.Proofs.Json.Nesting

/-!
# Documents

The strict reader goes through a row of tokens and makes a draft. When it comes to the end of what
it reads, the row began with the tokens of a value, and the draft is the draft of that value
(`Draft.read_eq_some_iff`). The direction that is still open after `Draft.reads` is the one from the
reader to the value: nothing is read to its end that is not JSON. Of the skimmer this is not true,
and what it makes of a text is of interest only for the texts that say a value
(`Document.skim_of_says`).

With what is known of the tokens of a text, this makes one statement of reading a text
(`Document.read_eq_iff`): a document is read to its end if and only if its text says a value whose
numerals are in range and whose brackets are not nested too deep, and then the draft is that of the
value. From here on a text that is read to its end may be taken for its value, and the tokens and
the readers are not needed any more.

A text that is JSON only up to a place has no value. What it has are the tokens up to there, and the
reader finds in them what it would find in a text that goes on as JSON. The last section has this
for the front of an array and for the front of an object.
-/

namespace TypeExpr.Json

/-- A value that a reader with `n` levels left can read to its end. -/
structure Admissible (n : Nat) (value : Json) : Prop where
  inRange : value.inRange = true
  nesting_le : value.nesting ≤ n

section Admissible

variable {n : Nat}

theorem admissible_array_iff {items : List Json} :
    (array items).Admissible (n + 1) ↔ ∀ item ∈ items, item.Admissible n := by
  constructor
  · rintro ⟨hrange, hnesting⟩ item hitem
    rw [inRange, allInRange_iff] at hrange
    rw [nesting, Nat.add_le_add_iff_right, nestingOfItems_le_iff] at hnesting
    exact ⟨hrange item hitem, hnesting item hitem⟩
  · intro h
    refine ⟨?_, Nat.succ_le_succ ?_⟩
    · exact allInRange_iff.mpr fun item hitem => (h item hitem).inRange
    · exact nestingOfItems_le_iff.mpr fun item hitem => (h item hitem).nesting_le

theorem admissible_object_iff {members : List (String × Json)} :
    (object members).Admissible (n + 1) ↔ ∀ member ∈ members, member.2.Admissible n := by
  constructor
  · rintro ⟨hrange, hnesting⟩ member hmember
    rw [inRange, membersInRange_iff] at hrange
    rw [nesting, Nat.add_le_add_iff_right, nestingOfMembers_le_iff] at hnesting
    exact ⟨hrange member hmember, hnesting member hmember⟩
  · intro h
    refine ⟨?_, Nat.succ_le_succ ?_⟩
    · exact membersInRange_iff.mpr fun member hmember => (h member hmember).inRange
    · exact nestingOfMembers_le_iff.mpr fun member hmember => (h member hmember).nesting_le

/-- What is left to open may be more than what is needed. -/
theorem Admissible.mono {value : Json} (h : value.Admissible n) {m : Nat} (hnm : n ≤ m) :
    value.Admissible m :=
  ⟨h.inRange, h.nesting_le.trans hnm⟩

end Admissible

/-! ### What is read to its end -/

namespace Draft

/-- A reader that reads nothing to its end but values, of `n` levels at most. -/
def ReadsOnly (value : Reader) (n : Nat) : Prop :=
  ∀ ⦃ts d rest⦄, value.read ts = ⟨d, some rest⟩ →
    ∃ v : Json, ts = v.tokens ++ rest ∧ d = v.draft ∧ v.nesting ≤ n

section Containers

variable {value : Reader} {n : Nat} {ts rest : List Token}

/-- **Items that are read to the end of their array** are values, with commas in between. -/
theorem exists_items (h : ReadsOnly value n) (hrest : (items value ts).rest = some rest) :
    ∃ item more, ts = item.tokens ++ (itemTokens more ++ rest) ∧
      (items value ts).found = drafts (item :: more) ∧
      Json.nestingOfItems (item :: more) ≤ n := by
  fun_induction items value ts with
  | case1 ts d us hread found ih =>
    obtain ⟨item, rfl, rfl, hn⟩ := h hread
    obtain ⟨next, others, rfl, hfound, hothers⟩ := ih hrest
    refine ⟨item, next :: others, ?_, ?_, Nat.max_le.mpr ⟨hn, hothers⟩⟩
    · rw [itemTokens, List.cons_append, List.append_assoc]
    · exact congrArg (item.draft :: ·) hfound
  | case2 ts d us hread =>
    obtain rfl := Option.some.inj hrest
    obtain ⟨item, rfl, rfl, hn⟩ := h hread
    exact ⟨item, [], rfl, rfl, Nat.max_le.mpr ⟨hn, Nat.zero_le n⟩⟩
  | case3 => cases hrest

/-- **Members that are read to the end of their object** have values under their keys, with commas
in between. -/
theorem exists_members (h : ReadsOnly value n) (hrest : (members value ts).rest = some rest) :
    ∃ key v more, ts = .text key :: .colon :: (v.tokens ++ (memberTokens more ++ rest)) ∧
      (members value ts).found = memberDrafts ((key, v) :: more) ∧
      Json.nestingOfMembers ((key, v) :: more) ≤ n := by
  fun_induction members value ts with
  | case1 key us d vs hread found ih =>
    obtain ⟨v, rfl, rfl, hn⟩ := h hread
    obtain ⟨next, w, others, rfl, hfound, hothers⟩ := ih hrest
    refine ⟨key, v, (next, w) :: others, ?_, ?_, Nat.max_le.mpr ⟨hn, hothers⟩⟩
    · rw [memberTokens]
      simp only [List.cons_append, List.append_assoc]
    · exact congrArg ((key, v.draft) :: ·) hfound
  | case2 key us d vs hread =>
    obtain rfl := Option.some.inj hrest
    obtain ⟨v, rfl, rfl, hn⟩ := h hread
    exact ⟨key, v, [], rfl, rfl, Nat.max_le.mpr ⟨hn, Nat.zero_le n⟩⟩
  | case3 | case4 | case5 => cases hrest

theorem exists_of_leaf {d : Draft} (hread : leaf ts = ⟨d, some rest⟩) :
    ∃ v : Json, ts = v.tokens ++ rest ∧ d = v.draft ∧ v.nesting = 0 := by
  unfold leaf at hread
  split at hread
  case h_5 => cases hread
  all_goals obtain ⟨rfl, ⟨⟩⟩ := Reading.mk.inj hread
  · exact ⟨.null, rfl, rfl, rfl⟩
  · exact ⟨.bool _, rfl, rfl, rfl⟩
  · exact ⟨.numeral _, rfl, rfl, rfl⟩
  · exact ⟨.text _, rfl, rfl, rfl⟩

end Containers

/-- **A reader reads nothing to its end but values.** The induction is on the levels that it has
left; along a container it is on what is read. -/
theorem readsOnly_reader (n : Nat) : ReadsOnly (reader n) n := by
  induction n with
  | zero =>
    intro ts d rest hread
    obtain ⟨v, hts, hd, hv⟩ := exists_of_leaf hread
    exact ⟨v, hts, hd, hv.le⟩
  | succ n ih =>
    intro ts d rest hread
    change nested (reader n) ts = _ at hread
    unfold nested at hread
    -- of arrays and of objects the empty ones come first, and then those that are read in a loop
    split at hread
    · obtain ⟨rfl, ⟨⟩⟩ := Reading.mk.inj hread
      exact ⟨.array [], rfl, rfl, Nat.succ_le_succ (Nat.zero_le n)⟩
    · rename_i us _
      obtain ⟨rfl, hrest⟩ := Reading.mk.inj hread
      obtain ⟨item, more, rfl, hfound, hn⟩ := exists_items ih hrest
      refine ⟨.array (item :: more), ?_, ?_, Nat.succ_le_succ hn⟩
      · rw [tokens, List.cons_append, List.append_assoc]
      · rw [hfound, hrest]
        rfl
    · obtain ⟨rfl, ⟨⟩⟩ := Reading.mk.inj hread
      exact ⟨.object [], rfl, rfl, Nat.succ_le_succ (Nat.zero_le n)⟩
    · rename_i us _
      obtain ⟨rfl, hrest⟩ := Reading.mk.inj hread
      obtain ⟨key, v, more, rfl, hfound, hn⟩ := exists_members ih hrest
      refine ⟨.object ((key, v) :: more), ?_, ?_, Nat.succ_le_succ hn⟩
      · rw [tokens]
        simp only [List.cons_append, List.append_assoc]
      · rw [hfound, hrest]
        rfl
    · obtain ⟨v, hts, hd, hv⟩ := exists_of_leaf hread
      exact ⟨v, hts, hd, hv.le.trans (Nat.zero_le _)⟩

/-- **What a reader with `n` levels left reads to its end** is a value of at most `n` levels. -/
theorem read_eq_some_iff {n : Nat} {ts rest : List Token} {d : Draft} :
    (reader n).read ts = ⟨d, some rest⟩ ↔
      ∃ value : Json, ts = value.tokens ++ rest ∧ d = value.draft ∧ value.nesting ≤ n := by
  refine ⟨fun h => readsOnly_reader n h, ?_⟩
  rintro ⟨value, rfl, rfl, hn⟩
  exact reads hn rest

end Draft

/-! ### Texts -/

/-- **A text has the tokens of a value** if and only if it says the value and the numerals of the
value are in range. -/
theorem lex_eq_tokens_iff {source : String} {value : Json} :
    Token.lex source.toList = value.tokens ↔ Says source value ∧ value.inRange = true := by
  refine ⟨fun h => ?_, fun ⟨hsource, hrange⟩ => hsource.lex hrange⟩
  rw [← List.append_nil value.tokens] at h
  obtain ⟨cs, rest, hsource, hrow, hlegible, -, hrest⟩ := Token.exists_spellsRow_of_lex h value.isFaulty_tokens
  refine ⟨?_, legible_tokens_iff.mp hlegible⟩
  -- what follows the value is blank, and so it belongs to its text
  have happend := hrow.append (.nil (Token.all_blank_of_lex_eq_nil hrest))
  rwa [← hsource, List.append_nil] at happend

/-- The values that one text says have their numerals in range, or none of them has. -/
theorem Says.inRange_of_says {source : String} {value other : Json} (h : Says source value)
    (h' : Says source other) (hother : other.inRange = true) : value.inRange = true := by
  by_contra hrange
  have hnot : ∃ t ∈ value.tokens, ¬t.Legible := by
    simpa using mt legible_tokens_iff.mp hrange
  obtain ⟨t, ht, hfaulty⟩ := Token.SpellsRow.exists_faulty h (apart_tokens value) hnot
  rw [h'.lex hother] at ht
  rw [other.isFaulty_tokens t ht] at hfaulty
  cases hfaulty

/-- **A text is read to its end** if and only if it says a value within the limits, and the draft is
that of the value. -/
theorem Document.read_eq_iff {source : String} {d : Draft} :
    Document.read source = ⟨d, true⟩ ↔
      ∃ value, d = value.draft ∧ Says source value ∧ value.Admissible nestingLimit := by
  constructor
  · intro h
    obtain ⟨rfl, hended⟩ := Document.mk.inj h
    have hrest := eq_of_beq hended
    obtain ⟨value, hts, hd, hn⟩ := Draft.read_eq_some_iff.mp
      (show (Draft.reader nestingLimit).read (Token.lex source.toList) = ⟨_, some []⟩ by
        rw [← hrest])
    rw [List.append_nil, lex_eq_tokens_iff] at hts
    exact ⟨value, hd, hts.1, hts.2, hn⟩
  · rintro ⟨value, rfl, hsource, hrange, hn⟩
    exact read_of_says hsource hrange hn

/-! ### Up to a place

A text that is JSON up to a place is read up to there, whatever follows. -/

theorem Says.lex_append {text : String} {value : Json} (h : Says text value)
    (hvalue : value.inRange = true) {rest : List Char}
    (hrest : ∀ t ∈ value.tokens.getLast?, t.Stops rest) :
    Token.lex (text.toList ++ rest) = value.tokens ++ Token.lex rest :=
  Token.SpellsRow.lex_append h (legible_tokens_iff.mpr hvalue) (apart_tokens value) hrest

/-- The tokens of values with a comma behind each. -/
def tokensBefore (values : List Json) : List Token :=
  values.flatMap fun value => value.tokens ++ [.comma]

/-- **Texts with a comma behind each** have the tokens of their values. -/
theorem lex_append_of_forall₂ {texts : List String} {values : List Json}
    (h : List.Forall₂ (fun text value => Says text value ∧ value.inRange = true) texts values)
    (s : List Char) :
    Token.lex ((texts.flatMap fun text => text.toList ++ [',']) ++ s) =
      tokensBefore values ++ Token.lex s := by
  have hcomma (t : Token) (rest : List Char) : t.Stops (',' :: rest) := by
    intro n _
    refine Numeral.Ended.stops ?_ n
    rintro c ⟨⟩
    decide
  induction h with
  | nil => rfl
  | @cons text value texts values htext _ ih =>
    rw [List.flatMap_cons, List.append_assoc, List.append_assoc, List.singleton_append,
      htext.1.lex_append htext.2 fun t _ => hcomma t _, Token.lex_of_scan (by decide) rfl, ih]
    simp [tokensBefore]

/-- The text of an object ends with its bracket. -/
theorem getLast?_tokens_object (members : List (String × Json)) :
    (object members).tokens.getLast? = some .closeObject := by
  have hmembers (members : List (String × Json)) :
      (memberTokens members).getLast? = some .closeObject := by
    induction members with
    | nil => rfl
    | cons member members ih => simp [memberTokens, List.getLast?_cons, ih]
  rcases members with _ | ⟨⟨key, value⟩, members⟩
  · rfl
  · simp [tokens, List.getLast?_cons, hmembers members]

namespace Draft

/-- The first item is what is read first. -/
theorem exists_items_found (value : Reader) (ts : List Token) :
    ∃ more, (items value ts).found = (value.read ts).found :: more := by
  rw [items]
  split
  · rename_i hread
    exact ⟨_, by rw [hread]⟩
  · rename_i hread
    exact ⟨_, by rw [hread]⟩
  · rename_i hread
    exact ⟨_, by rw [hread]⟩

/-- What is under the first key is what is read behind the colon. -/
theorem exists_members_found_colon (value : Reader) (key : String) (us : List Token) :
    ∃ more, (members value (.text key :: .colon :: us)).found =
      (key, (value.read us).found) :: more := by
  rw [members]
  split
  · rename_i hread
    exact ⟨_, by rw [hread]⟩
  · rename_i hread
    exact ⟨_, by rw [hread]⟩
  · rename_i hread
    exact ⟨_, by rw [hread]⟩

/-- A key is found even if there is no colon behind it. -/
theorem exists_members_found (value : Reader) (key : String) (us : List Token) :
    ∃ d more, (members value (.text key :: us)).found = (key, d) :: more := by
  by_cases hcolon : ∃ vs, us = .colon :: vs
  · obtain ⟨vs, rfl⟩ := hcolon
    obtain ⟨more, hfound⟩ := exists_members_found_colon value key vs
    exact ⟨_, more, hfound⟩
  · rw [members]
    · exact ⟨_, _, rfl⟩
    · exact fun vs h => hcolon ⟨vs, h⟩

/-- **Values with a comma behind each** are found one after the other. -/
theorem items_tokensBefore {n : Nat} {values : List Json}
    (h : ∀ value ∈ values, value.nesting ≤ n) (ts : List Token) :
    (items (reader n) (tokensBefore values ++ ts)).found =
      drafts values ++ (items (reader n) ts).found := by
  induction values with
  | nil => rfl
  | cons value values ih =>
    obtain ⟨hvalue, hvalues⟩ := List.forall_mem_cons.mp h
    have hread : (reader n).read (value.tokens ++ .comma :: (tokensBefore values ++ ts)) =
        ⟨value.draft, some (.comma :: (tokensBefore values ++ ts))⟩ :=
      read_eq_some_iff.mpr ⟨value, rfl, rfl, hvalue⟩
    have htokens : tokensBefore (value :: values) ++ ts =
        value.tokens ++ .comma :: (tokensBefore values ++ ts) := by
      simp [tokensBefore]
    rw [htokens, items_of_comma hread, ih hvalues, drafts, List.cons_append]

end Draft

end TypeExpr.Json
