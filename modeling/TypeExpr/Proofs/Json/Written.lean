import Mathlib.Data.List.Chain
import TypeExpr.Json.Draft
import TypeExpr.Proofs.Json.Numeral
import TypeExpr.Proofs.Json.Quoted

/-!
# The tokens of a text

Which tokens a text has can be said without reading it. Each token has its spellings, and a text
spells a row of tokens if it is made of a spelling of each, in order, with blanks before, between
and behind them (`Token.SpellsRow`). This file shows that reading finds a row of tokens at the front
of a text if and only if the front of the text spells it.

Every token but one ends by itself. A numeral ends where something follows that does not continue
it (`Token.Stops`), so a row of tokens is read back if it has no numeral right behind another
(`Token.Apart`) and if what follows the row stops it. A value never has two numerals side by side,
because of the commas and the brackets between them.

The other condition is on the tokens by themselves. In the place of a numeral that is out of range
there is a token without a value, so a value that holds one has texts that nothing reads
(`Json.inRange`).
-/

namespace TypeExpr.Json

/-! ### Tokens -/

namespace Token

/-- Whether a token stands for something in a text that has no value. -/
def isFaulty : Token → Bool
  | unpaired | outOfRange | junk => true
  | _ => false

/-- Whether a token is read from its own text: it has a value, and is no numeral out of
range. -/
def Legible : Token → Prop
  | numeral n => n.inRange = true
  | unpaired | outOfRange | junk => False
  | _ => True

/-- Whether a token has one spelling only. -/
def isFixed : Token → Bool
  | numeral _ | text _ | unpaired | outOfRange | junk => false
  | _ => true

/-- Whether a token ends by itself, whatever follows it. -/
def isBounded : Token → Bool
  | numeral _ | unpaired | outOfRange | junk => false
  | _ => true

theorem legible_of_isBounded {t : Token} (h : t.isBounded = true) : t.Legible := by
  cases t <;> trivial

/-- Of a row of tokens those are of interest that need not be legible. -/
theorem legible_cons {t : Token} {ts : List Token} (h : t.isBounded = true) :
    (∀ u ∈ t :: ts, u.Legible) ↔ ∀ u ∈ ts, u.Legible :=
  List.forall_mem_cons.trans (and_iff_right (legible_of_isBounded h))

/-- **The spellings of a token.** -/
inductive Spells : List Char → Token → Prop
  | fixed {t : Token} : t.isFixed = true → Spells t.write t
  | numeral {cs : List Char} {n : Numeral} : Numeral.Spells cs n → Spells cs (numeral n)
  | text {ps cs : List Char} : Quoted.Spells ps cs →
    Spells ('"' :: (ps ++ ['"'])) (text (String.ofList cs))

/-- What follows a token does not continue it. -/
def Stops (t : Token) (rest : List Char) : Prop :=
  ∀ n, t = numeral n → n.Stops rest

theorem stops_of_isBounded {t : Token} (h : t.isBounded = true) (rest : List Char) :
    t.Stops rest := by
  rintro n rfl
  cases h

theorem isFaulty_of_legible {t : Token} (h : t.Legible) : t.isFaulty = false := by
  cases t <;> first | rfl | cases h

/-- The only tokens that have spellings and may not be legible are numerals. -/
theorem Spells.exists_numeral {cs : List Char} {t : Token} (h : Spells cs t) (ht : ¬t.Legible) :
    ∃ n, t = .numeral n ∧ Numeral.Spells cs n := by
  cases h with
  | fixed hfixed => cases t <;> first | exact absurd trivial ht | cases hfixed
  | numeral hcs => exact ⟨_, rfl, hcs⟩
  | text => exact absurd trivial ht

/-- The first character of a numeral is that of no other token. -/
theorem ne_of_spells_cons {n : Numeral} {c : Char} {cs : List Char}
    (h : Numeral.Spells (c :: cs) n) {b : Char} (hb : b.isDigit = false) (hminus : b ≠ '-') :
    c ≠ b := by
  obtain ⟨d, ds, heq, hsign | hdigit⟩ := h.exists_cons
  · obtain ⟨rfl, -⟩ := List.cons.inj heq
    exact fun hcb => hminus (hcb.symm.trans hsign)
  · obtain ⟨rfl, -⟩ := List.cons.inj heq
    rintro rfl
    exact absurd hdigit (by rw [hb]; simp)

/-- A spelling is not empty, and no blank stands in front of it. -/
theorem Spells.exists_cons {cs : List Char} {t : Token} (h : Spells cs t) :
    ∃ d ds, cs = d :: ds ∧ isBlank d = false := by
  cases h with
  | fixed h =>
    cases t with
    | bool b => cases b <;> exact ⟨_, _, rfl, rfl⟩
    | numeral | text | unpaired | outOfRange | junk => cases h
    | _ => exact ⟨_, _, rfl, rfl⟩
  | numeral hcs =>
    obtain ⟨d, ds, rfl, -⟩ := hcs.exists_cons
    have hne (b : Char) (hb : b.isDigit = false) (hminus : b ≠ '-') : d ≠ b :=
      ne_of_spells_cons hcs hb hminus
    exact ⟨d, ds, rfl, by simp [isBlank, hne]⟩
  | text => exact ⟨_, _, rfl, rfl⟩

/-- A numeral ends in front of any other token. -/
theorem Spells.ended {cs : List Char} {t : Token} (h : Spells cs t) (ht : t.isBounded = true)
    (rest : List Char) : Numeral.Ended (cs ++ rest) := by
  cases h with
  | fixed h =>
    cases t with
    | bool b => cases b <;> (rintro c ⟨⟩; decide)
    | numeral | text | unpaired | outOfRange | junk => cases h
    | _ => rintro c ⟨⟩; decide
  | numeral => cases ht
  | text => rintro c ⟨⟩; decide

/-- A numeral is a token if it is in range, and a fault if it is not. -/
theorem scan_numeral {cs rest : List Char} {n : Numeral} (h : Numeral.Spells cs n)
    (hstops : n.Stops rest) :
    scan (cs ++ rest) = some (if n.inRange then numeral n else outOfRange, rest) := by
  have hscan := Numeral.scan_eq_some_iff.mpr ⟨cs, rfl, h, hstops⟩
  obtain ⟨c, ds, rfl, -⟩ := h.exists_cons
  have hne {b : Char} {r : List Char} (hb : b.isDigit = false) (hminus : b ≠ '-')
      (hr : c :: (ds ++ rest) = b :: r) : False :=
    ne_of_spells_cons h hb hminus (List.cons.inj hr).1
  -- the first character decides: it opens none of the other tokens
  rw [List.cons_append] at hscan ⊢
  rw [scan, hscan, Option.map_some]
  all_goals exact fun _ => hne rfl (by decide)

/-- **A token is read from each of its spellings, and from nothing else**, if it stops where the
rest begins. -/
theorem scan_eq_some_iff {s rest : List Char} {t : Token} (ht : t.isFaulty = false) :
    scan s = some (t, rest) ↔ ∃ cs, s = cs ++ rest ∧ Spells cs t ∧ t.Legible ∧ t.Stops rest := by
  constructor
  · intro h
    unfold scan at h
    split at h
    case h_10 =>
      split at h
      · rename_i hscan
        obtain ⟨rfl, rfl⟩ := Prod.mk.inj (Option.some.inj h)
        obtain ⟨ps, rfl, hps⟩ := Quoted.scan_eq_some_iff.mp hscan
        exact ⟨_, by simp, .text hps, trivial, stops_of_isBounded rfl _⟩
      · simp only [Option.map_eq_some_iff, Prod.mk.injEq] at h
        obtain ⟨_, _, rfl, -⟩ := h
        cases ht
    case h_11 =>
      simp only [Option.map_eq_some_iff, Prod.exists, Prod.mk.injEq] at h
      obtain ⟨n, after, hscan, rfl, rfl⟩ := h
      split at ht
      · rename_i hrange
        obtain ⟨cs, rfl, hcs, hstops⟩ := Numeral.scan_eq_some_iff.mp hscan
        rw [if_pos hrange]
        refine ⟨cs, rfl, .numeral hcs, hrange, ?_⟩
        rintro n ⟨⟩
        exact hstops
      · cases ht
    all_goals
      obtain ⟨rfl, rfl⟩ := Prod.mk.inj (Option.some.inj h)
      exact ⟨_, rfl, .fixed rfl, trivial, stops_of_isBounded rfl _⟩
  · rintro ⟨cs, rfl, hcs, hlegible, hstops⟩
    cases hcs with
    | fixed h =>
      cases t with
      | bool b => cases b <;> rfl
      | numeral | text | unpaired | outOfRange | junk => cases h
      | _ => rfl
    | text hps =>
      rw [List.cons_append, List.append_assoc, scan, List.singleton_append,
        Quoted.scan_eq_some_iff.mpr ⟨_, rfl, hps⟩]
    | @numeral _ n hcs =>
      have hrange : n.inRange = true := hlegible
      rw [scan_numeral hcs (hstops n rfl), if_pos hrange]

/-- What is written for a token spells it. -/
theorem spells_write {t : Token} (ht : t.isFaulty = false) : Spells t.write t := by
  cases t with
  | numeral n => exact .numeral n.spells_write
  | text s =>
    have hspells := Spells.text (Quoted.spells_escapes s.toList)
    rwa [String.ofList_toList] at hspells
  | unpaired | outOfRange | junk => cases ht
  | _ => exact .fixed rfl

/-! ### Rows of tokens -/

/-- **The texts of a row of tokens**: a spelling of each of them, in order, and blanks in
between. -/
inductive SpellsRow : List Char → List Token → Prop
  | nil {blanks : List Char} : (∀ c ∈ blanks, isBlank c = true) → SpellsRow blanks []
  | cons {blanks cs rest : List Char} {t : Token} {ts : List Token} :
    (∀ c ∈ blanks, isBlank c = true) → Spells cs t → SpellsRow rest ts →
      SpellsRow (blanks ++ (cs ++ rest)) (t :: ts)

/-- No numeral stands right behind another. -/
def Apart (ts : List Token) : Prop :=
  ts.IsChain fun t u => t.isBounded = false → u.isBounded = true

section Rows

variable {cs ds rest : List Char} {t : Token} {ts us : List Token}

theorem apart_cons (ht : t.isBounded = true) : Apart (t :: ts) ↔ Apart ts := by
  cases ts <;> simp [Apart, ht]

theorem apart_append (h : ∀ u ∈ us.head?, u.isBounded = true) :
    Apart (ts ++ us) ↔ Apart ts ∧ Apart us := by
  rw [Apart, List.isChain_append]
  exact and_congr_right fun _ => and_iff_left fun _ _ u hu _ => h u hu

/-- Blanks in front of a row belong to it. -/
theorem SpellsRow.blanks_append (h : SpellsRow cs ts) {blanks : List Char}
    (hblanks : ∀ c ∈ blanks, isBlank c = true) : SpellsRow (blanks ++ cs) ts := by
  cases h with
  | nil hcs => exact .nil (List.forall_mem_append.mpr ⟨hblanks, hcs⟩)
  | cons hcs hspells hrest =>
    rw [← List.append_assoc]
    exact .cons (List.forall_mem_append.mpr ⟨hblanks, hcs⟩) hspells hrest

/-- One row behind another. -/
theorem SpellsRow.append (h : SpellsRow cs ts) (h' : SpellsRow ds us) :
    SpellsRow (cs ++ ds) (ts ++ us) := by
  induction h with
  | nil hblanks => exact h'.blanks_append hblanks
  | cons hblanks hspells _ ih =>
    rw [List.append_assoc, List.append_assoc, List.cons_append]
    exact .cons hblanks hspells ih

/-- A text of a row and another behind it is made of a text of each. -/
theorem SpellsRow.exists_append (h : SpellsRow cs (ts ++ us)) :
    ∃ ds es, cs = ds ++ es ∧ SpellsRow ds ts ∧ SpellsRow es us := by
  induction ts generalizing cs with
  | nil => exact ⟨[], cs, rfl, .nil fun _ hc => absurd hc List.not_mem_nil, h⟩
  | cons t ts ih =>
    obtain _ | ⟨hblanks, hspells, hrest⟩ := h
    obtain ⟨ds, es, rfl, hds, hes⟩ := ih hrest
    exact ⟨_, es, by simp only [List.append_assoc], .cons hblanks hspells hds, hes⟩

/-- What is written for the tokens of a row, one after the other, spells it. -/
theorem spellsRow_write (h : ∀ t ∈ ts, t.isFaulty = false) : SpellsRow (ts.flatMap write) ts := by
  induction ts with
  | nil => exact .nil fun _ hc => absurd hc List.not_mem_nil
  | cons t ts ih =>
    obtain ⟨ht, hts⟩ := List.forall_mem_cons.mp h
    exact .cons (fun _ hc => absurd hc List.not_mem_nil) (spells_write ht) (ih hts)

theorem stops_nil (t : Token) : t.Stops [] :=
  fun n _ => Numeral.Ended.stops (fun _ hc => by cases hc) n

/-- A blank stops any token. -/
theorem stops_blank {c : Char} (hc : isBlank c = true) : t.Stops (c :: rest) := by
  intro n _
  refine Numeral.Ended.stops (fun d hd => ?_) n
  obtain rfl := Option.some.inj hd
  simp only [isBlank, Bool.or_eq_true, decide_eq_true_eq] at hc
  rcases hc with ((rfl | rfl) | rfl) | rfl <;> decide

/-- A token is stopped by a row behind it, unless both are numerals. -/
theorem SpellsRow.stops (h : SpellsRow cs ts)
    (hnext : t.isBounded = false → ∀ u ∈ ts.head?, u.isBounded = true)
    (hrest : ts = [] → t.Stops rest) : t.Stops (cs ++ rest) := by
  cases h with
  | nil hblanks =>
    cases cs with
    | nil => exact hrest rfl
    | cons c cs => exact stops_blank (hblanks c List.mem_cons_self)
  | @cons blanks ds after u _ hblanks hspells _ =>
    cases blanks with
    | nil =>
      rintro n rfl
      rw [List.nil_append, List.append_assoc]
      exact (hspells.ended (hnext rfl u rfl) _).stops n
    | cons c blanks => exact stops_blank (hblanks c List.mem_cons_self)

/-! ### Reading -/

theorem lex_blanks {blanks : List Char} (h : ∀ c ∈ blanks, isBlank c = true) (s : List Char) :
    lex (blanks ++ s) = lex s := by
  induction blanks with
  | nil => rfl
  | cons c blanks ih =>
    obtain ⟨hc, hblanks⟩ := List.forall_mem_cons.mp h
    rw [List.cons_append, lex_blank hc, ih hblanks]

/-- **The tokens at the front of a text are those that its front spells**, if what follows stops
the last of them. -/
theorem SpellsRow.lex_append (h : SpellsRow cs ts) (hlegible : ∀ t ∈ ts, t.Legible)
    (hapart : Apart ts) (hrest : ∀ t ∈ ts.getLast?, t.Stops rest) :
    lex (cs ++ rest) = ts ++ lex rest := by
  induction h with
  | nil hblanks => exact lex_blanks hblanks rest
  | @cons blanks cs after t ts hblanks hspells hrow ih =>
    obtain ⟨ht, hts⟩ := List.forall_mem_cons.mp hlegible
    obtain ⟨hnext, hapart⟩ := List.isChain_cons.mp hapart
    have hstops : t.Stops (after ++ rest) := by
      refine hrow.stops (fun hbounded u hu => hnext u hu hbounded) fun hnil => ?_
      subst hnil
      exact hrest t rfl
    have hlast : ∀ t ∈ ts.getLast?, t.Stops rest := by
      intro u hu
      refine hrest u ?_
      rw [List.getLast?_cons, Option.mem_def.mp hu]
      rfl
    obtain ⟨d, ds, rfl, hd⟩ := hspells.exists_cons
    have hscan := (scan_eq_some_iff (isFaulty_of_legible ht)).mpr ⟨_, rfl, hspells, ht, hstops⟩
    rw [List.append_assoc, lex_blanks hblanks, List.append_assoc]
    rw [List.cons_append] at hscan ⊢
    rw [lex_of_scan hd hscan, ih hts hapart hlast, List.cons_append]

/-- **A token that is not legible** is a fault of the text. -/
theorem SpellsRow.exists_faulty (h : SpellsRow cs ts) (hapart : Apart ts)
    (hnot : ∃ t ∈ ts, ¬t.Legible) : ∃ t ∈ lex cs, t.isFaulty = true := by
  induction h with
  | nil => simp at hnot
  | @cons blanks cs after t ts hblanks hspells hrow ih =>
    obtain ⟨hnext, hapart⟩ := List.isChain_cons.mp hapart
    have hstops := hrow.stops (fun hbounded u hu => hnext u hu hbounded) fun _ => t.stops_nil
    rw [List.append_nil] at hstops
    obtain ⟨d, ds, hcs, hd⟩ := hspells.exists_cons
    rw [lex_blanks hblanks, hcs, List.cons_append]
    by_cases ht : t.Legible
    · have hscan := (scan_eq_some_iff (isFaulty_of_legible ht)).mpr
        ⟨cs, rfl, hspells, ht, hstops⟩
      rw [hcs, List.cons_append] at hscan
      rw [lex_of_scan hd hscan]
      obtain ⟨u, hu, hillegible⟩ := hnot
      rcases List.mem_cons.mp hu with rfl | hu
      · exact absurd ht hillegible
      · obtain ⟨v, hv, hfaulty⟩ := ih hapart ⟨u, hu, hillegible⟩
        exact ⟨v, List.mem_cons_of_mem _ hv, hfaulty⟩
    · obtain ⟨n, rfl, hn⟩ := hspells.exists_numeral ht
      have hscan := scan_numeral hn (hstops n rfl)
      have hrange : ¬n.inRange = true := ht
      rw [if_neg hrange, hcs, List.cons_append] at hscan
      rw [lex_of_scan hd hscan]
      exact ⟨outOfRange, List.mem_cons_self, rfl⟩

theorem all_blank_of_lex_eq_nil {s : List Char} (h : lex s = []) :
    ∀ c ∈ s, isBlank c = true := by
  induction s with
  | nil => exact fun _ hc => absurd hc List.not_mem_nil
  | cons c s ih =>
    by_cases hc : isBlank c = true
    · rw [lex_blank hc] at h
      exact List.forall_mem_cons.mpr ⟨hc, ih h⟩
    · rw [Bool.not_eq_true] at hc
      cases hscan : scan (c :: s) with
      | none => rw [lex_of_scan_eq_none hc hscan] at h; cases h
      | some got => rw [lex_of_scan hc hscan] at h; cases h

/-- The first token of a text stands behind its blanks. -/
theorem exists_of_lex_eq_cons {s : List Char} (h : lex s = t :: us) (ht : t.isFaulty = false) :
    ∃ blanks cs rest, s = blanks ++ (cs ++ rest) ∧ (∀ c ∈ blanks, isBlank c = true) ∧
      Spells cs t ∧ t.Legible ∧ t.Stops rest ∧ lex rest = us := by
  induction s with
  | nil => rw [lex_nil] at h; cases h
  | cons c s ih =>
    by_cases hc : isBlank c = true
    · rw [lex_blank hc] at h
      obtain ⟨blanks, cs, rest, rfl, hblanks, hfirst⟩ := ih h
      exact ⟨c :: blanks, cs, rest, rfl, List.forall_mem_cons.mpr ⟨hc, hblanks⟩, hfirst⟩
    · rw [Bool.not_eq_true] at hc
      cases hscan : scan (c :: s) with
      | none =>
        rw [lex_of_scan_eq_none hc hscan] at h
        obtain rfl := (List.cons.inj h).1
        cases ht
      | some got =>
        obtain ⟨u, rest⟩ := got
        rw [lex_of_scan hc hscan] at h
        obtain ⟨rfl, hrest⟩ := List.cons.inj h
        obtain ⟨cs, hs, hspells, hlegible, hstops⟩ := (scan_eq_some_iff ht).mp hscan
        exact ⟨[], cs, rest, hs, fun _ hc => absurd hc List.not_mem_nil, hspells, hlegible,
          hstops, hrest⟩

/-- **A row of tokens at the front of a text is spelled there.** -/
theorem exists_spellsRow_of_lex {s : List Char} (h : lex s = ts ++ us)
    (hts : ∀ t ∈ ts, t.isFaulty = false) :
    ∃ cs rest, s = cs ++ rest ∧ SpellsRow cs ts ∧ (∀ t ∈ ts, t.Legible) ∧
      (∀ t ∈ ts.getLast?, t.Stops rest) ∧ lex rest = us := by
  have hnil : SpellsRow [] [] := .nil fun _ hc => absurd hc List.not_mem_nil
  induction ts generalizing s with
  | nil => exact ⟨[], s, rfl, hnil, by simp, by simp, h⟩
  | cons t ts ih =>
    obtain ⟨ht, hts⟩ := List.forall_mem_cons.mp hts
    obtain ⟨blanks, cs, after, rfl, hblanks, hspells, hlegible, hstops, hafter⟩ :=
      exists_of_lex_eq_cons h ht
    cases ts with
    | nil =>
      -- the row ends with this token, and the blanks behind it are left to the rest
      exact ⟨blanks ++ (cs ++ []), after, by simp, .cons hblanks hspells hnil,
        by simpa using hlegible, by simpa using hstops, hafter⟩
    | cons u ts =>
      obtain ⟨ds, rest, rfl, hrow, hlegible', hlast, hrest⟩ := ih hafter hts
      exact ⟨blanks ++ (cs ++ ds), rest, by simp only [List.append_assoc],
        .cons hblanks hspells hrow, List.forall_mem_cons.mpr ⟨hlegible, hlegible'⟩,
        by rwa [List.getLast?_cons_cons], hrest⟩

/-- **A text begins with a row of tokens** if its front spells the row, the tokens are legible, and
what follows does not continue the last of them. -/
def Begins (s : List Char) (ts : List Token) : Prop :=
  ∃ cs rest, s = cs ++ rest ∧ SpellsRow cs ts ∧ (∀ t ∈ ts, t.Legible) ∧
    ∀ t ∈ ts.getLast?, t.Stops rest

/-- The row that a text begins with is at the front of its tokens. -/
theorem Begins.exists_lex_eq {s : List Char} (h : Begins s ts) (hapart : Apart ts) :
    ∃ us, lex s = ts ++ us := by
  obtain ⟨cs, rest, rfl, hrow, hlegible, hlast⟩ := h
  exact ⟨lex rest, hrow.lex_append hlegible hapart hlast⟩

/-- A text begins with each row at the front of its tokens. -/
theorem begins_of_lex_eq {s : List Char} (h : lex s = ts ++ us)
    (hts : ∀ t ∈ ts, t.isFaulty = false) :
    Begins s ts := by
  obtain ⟨cs, rest, rfl, hrow, hlegible, hlast, -⟩ := exists_spellsRow_of_lex h hts
  exact ⟨cs, rest, rfl, hrow, hlegible, hlast⟩

/-- A text that spells a row has the tokens of the row. -/
theorem SpellsRow.lex_eq (h : SpellsRow cs ts) (hlegible : ∀ t ∈ ts, t.Legible)
    (hapart : Apart ts) : lex cs = ts := by
  have hlex := h.lex_append hlegible hapart fun t _ => t.stops_nil
  rwa [List.append_nil, lex_nil, List.append_nil] at hlex

end Rows

end Token

/-! ### Induction -/

/-- Induction on a value, with a hypothesis for each item and for each member. -/
@[elab_as_elim, induction_eliminator]
theorem induct {motive : Json → Prop} (null : motive .null) (bool : ∀ b, motive (.bool b))
    (numeral : ∀ n, motive (.numeral n)) (text : ∀ s, motive (.text s))
    (array : ∀ items, (∀ item ∈ items, motive item) → motive (.array items))
    (object : ∀ members, (∀ member ∈ members, motive member.2) → motive (.object members))
    (value : Json) : motive value := by
  cases value with
  | null => exact null
  | bool b => exact bool b
  | numeral n => exact numeral n
  | text s => exact text s
  | array items =>
    exact array items fun item _ => induct null bool numeral text array object item
  | object members =>
    exact object members fun member _hmember =>
      induct null bool numeral text array object member.2
termination_by sizeOf value
decreasing_by
  · decreasing_tactic
  · have hlt := List.sizeOf_lt_of_mem _hmember
    cases member
    simp only [Prod.mk.sizeOf_spec, Json.object.sizeOf_spec] at hlt ⊢
    omega

/-! ### The numerals of a value -/

mutual

/-- Whether all numerals of a value are within range. -/
def inRange : Json → Bool
  | numeral n => n.inRange
  | array items => allInRange items
  | object members => membersInRange members
  | _ => true

/-- Whether all numerals of some values are within range. -/
def allInRange : List Json → Bool
  | [] => true
  | item :: items => item.inRange && allInRange items

/-- Whether all numerals of some members are within range. -/
def membersInRange : List (String × Json) → Bool
  | [] => true
  | (_, value) :: members => value.inRange && membersInRange members

end

theorem allInRange_iff {items : List Json} :
    allInRange items = true ↔ ∀ item ∈ items, item.inRange = true := by
  induction items with
  | nil => simp [allInRange]
  | cons item items ih => simp [allInRange, ih]

theorem membersInRange_iff {members : List (String × Json)} :
    membersInRange members = true ↔ ∀ member ∈ members, member.2.inRange = true := by
  induction members with
  | nil => simp [membersInRange]
  | cons member members ih => simp [membersInRange, ih]

/-! ### The tokens of a value -/

section Lists

open Token

variable {items : List Json} {members : List (String × Json)}

theorem legible_itemTokens_iff
    (h : ∀ item ∈ items, (∀ t ∈ item.tokens, t.Legible) ↔ item.inRange = true) :
    (∀ t ∈ itemTokens items, t.Legible) ↔ allInRange items = true := by
  induction items with
  | nil => exact (legible_cons rfl).trans (by simp [allInRange])
  | cons item items ih =>
    have hitem := h item List.mem_cons_self
    have hitems := ih fun item hi => h item (List.mem_cons_of_mem _ hi)
    rw [itemTokens, legible_cons rfl, List.forall_mem_append, hitem, hitems, allInRange,
      Bool.and_eq_true]

theorem legible_memberTokens_iff
    (h : ∀ member ∈ members, (∀ t ∈ member.2.tokens, t.Legible) ↔ member.2.inRange = true) :
    (∀ t ∈ memberTokens members, t.Legible) ↔ membersInRange members = true := by
  induction members with
  | nil => exact (legible_cons rfl).trans (by simp [membersInRange])
  | cons member members ih =>
    have hvalue := h member List.mem_cons_self
    have hmembers := ih fun member hi => h member (List.mem_cons_of_mem _ hi)
    rw [memberTokens, legible_cons rfl, legible_cons rfl, legible_cons rfl,
      List.forall_mem_append, hvalue, hmembers, membersInRange, Bool.and_eq_true]

theorem apart_tokens_append_itemTokens (h : ∀ item ∈ items, Apart item.tokens) {ts : List Token}
    (hts : Apart ts) : Apart (ts ++ itemTokens items) := by
  induction items generalizing ts with
  | nil =>
    exact (apart_append (by simp [itemTokens, isBounded])).mpr ⟨hts, List.isChain_singleton _⟩
  | cons item items ih =>
    refine (apart_append (by simp [itemTokens, isBounded])).mpr ⟨hts, (apart_cons rfl).mpr ?_⟩
    exact ih (fun item hi => h item (List.mem_cons_of_mem _ hi)) (h item List.mem_cons_self)

theorem apart_tokens_append_memberTokens (h : ∀ member ∈ members, Apart member.2.tokens)
    {ts : List Token} (hts : Apart ts) : Apart (ts ++ memberTokens members) := by
  induction members generalizing ts with
  | nil =>
    exact (apart_append (by simp [memberTokens, isBounded])).mpr ⟨hts, List.isChain_singleton _⟩
  | cons member members ih =>
    refine (apart_append (by simp [memberTokens, isBounded])).mpr ⟨hts, ?_⟩
    refine (apart_cons rfl).mpr ((apart_cons rfl).mpr ((apart_cons rfl).mpr ?_))
    exact ih (fun member hi => h member (List.mem_cons_of_mem _ hi)) (h member List.mem_cons_self)

end Lists

/-- The tokens of a value are legible if its numerals are in range. -/
theorem legible_tokens_iff {value : Json} :
    (∀ t ∈ value.tokens, t.Legible) ↔ value.inRange = true := by
  induction value with
  | null | bool _ | text _ => exact (Token.legible_cons rfl).trans (by simp [inRange])
  | numeral n => simp [tokens, inRange, Token.Legible]
  | array items ih =>
    have hitems (rest : List Json) (hrest : rest ⊆ items) :=
      legible_itemTokens_iff fun item hi => ih item (hrest hi)
    cases items with
    | nil => exact (Token.legible_cons rfl).trans (hitems [] (List.Subset.refl _))
    | cons item items =>
      rw [tokens, Token.legible_cons rfl, List.forall_mem_append, ih item List.mem_cons_self,
        hitems items (List.subset_cons_self _ _), inRange, allInRange, Bool.and_eq_true]
  | object members ih =>
    have hmembers (rest : List (String × Json)) (hrest : rest ⊆ members) :=
      legible_memberTokens_iff fun member hi => ih member (hrest hi)
    rcases members with _ | ⟨⟨key, value⟩, members⟩
    · exact (Token.legible_cons rfl).trans (hmembers [] (List.Subset.refl _))
    · rw [tokens, Token.legible_cons rfl, Token.legible_cons rfl, Token.legible_cons rfl,
        List.forall_mem_append, ih (key, value) List.mem_cons_self,
        hmembers members (List.subset_cons_self _ _), inRange, membersInRange, Bool.and_eq_true]

/-- **No value has two numerals side by side.** -/
theorem apart_tokens (value : Json) : Token.Apart value.tokens := by
  induction value with
  | null | bool _ | numeral _ | text _ => exact List.isChain_singleton _
  | array items ih =>
    cases items with
    | nil => simp [tokens, Token.Apart, Token.isBounded]
    | cons item items =>
      refine (Token.apart_cons rfl).mpr (apart_tokens_append_itemTokens ?_ ?_)
      · exact fun item hi => ih item (List.mem_cons_of_mem _ hi)
      · exact ih item List.mem_cons_self
  | object members ih =>
    rcases members with _ | ⟨⟨key, value⟩, members⟩
    · simp [tokens, Token.Apart, Token.isBounded]
    · refine (Token.apart_cons rfl).mpr ((Token.apart_cons rfl).mpr ((Token.apart_cons rfl).mpr
        (apart_tokens_append_memberTokens ?_ ?_)))
      · exact fun member hi => ih member (List.mem_cons_of_mem _ hi)
      · exact ih (key, value) List.mem_cons_self

mutual

/-- A value has no fault in its tokens. -/
theorem isFaulty_tokens : ∀ value : Json, ∀ t ∈ value.tokens, t.isFaulty = false
  | null | bool _ | numeral _ | text _ => by simp [tokens, Token.isFaulty]
  | array [] | object [] => by simp [tokens, Token.isFaulty]
  | array (item :: items) => by
    simpa [tokens, Token.isFaulty, or_imp, forall_and] using
      ⟨isFaulty_tokens item, isFaulty_itemTokens items⟩
  | object ((key, value) :: members) => by
    simpa [tokens, Token.isFaulty, or_imp, forall_and] using
      ⟨isFaulty_tokens value, isFaulty_memberTokens members⟩

theorem isFaulty_itemTokens :
    ∀ items : List Json, ∀ t ∈ itemTokens items, t.isFaulty = false
  | [] => by simp [itemTokens, Token.isFaulty]
  | item :: items => by
    simpa [itemTokens, Token.isFaulty, or_imp, forall_and] using
      ⟨isFaulty_tokens item, isFaulty_itemTokens items⟩

theorem isFaulty_memberTokens :
    ∀ members : List (String × Json), ∀ t ∈ memberTokens members, t.isFaulty = false
  | [] => by simp [memberTokens, Token.isFaulty]
  | (key, value) :: members => by
    simpa [memberTokens, Token.isFaulty, or_imp, forall_and] using
      ⟨isFaulty_tokens value, isFaulty_memberTokens members⟩

end

/-! ### The texts of a value -/

/-- **A text says a value** if it spells the row of the value's tokens. -/
def Says (source : String) (value : Json) : Prop :=
  Token.SpellsRow source.toList value.tokens

/-- **The tokens of a text that says a value are those of the value**, if its numerals are in
range. -/
theorem Says.lex {source : String} {value : Json} (h : Says source value)
    (hvalue : value.inRange = true) : Token.lex source.toList = value.tokens :=
  h.lex_eq (legible_tokens_iff.mpr hvalue) (apart_tokens value)

/-- **The compact text of a value says it.** -/
theorem says_compact (value : Json) : Says value.compact value := by
  rw [Says, compact, String.toList_ofList]
  exact Token.spellsRow_write value.isFaulty_tokens

/-- **The compact text of a value gives back its tokens.** -/
theorem lex_compact {value : Json} (hvalue : value.inRange = true) :
    Token.lex value.compact.toList = value.tokens :=
  (says_compact value).lex hvalue

end TypeExpr.Json
