import TypeExpr.Json.Numeral

/-!
# The spellings of a numeral

A numeral is read part by part, the sign, the whole digits, the fraction and the exponent, and each
part takes what it can. `Numeral.Spells` says by rules which texts spell which numeral, part by part
as well. The main fact is that the reader reads just these texts (`Numeral.scan_eq_some_iff`).

A numeral is the one token without an end of its own: it goes on as long as there are characters
that continue it. So the fact has a condition on what follows, `Numeral.Stops`, which depends on
the parts that the numeral has. Where a point or an exponent could still be added, there must be
neither.

What is written for a numeral is one of its spellings. The whole digits need an argument there: the
rules have no zero in front of other digits, and the digits of a number never begin like that. For
a numeral in plain digits it is the only spelling, and no other numeral is spelled by digits alone
(`Numeral.Spells.natural?_eq_some_iff`).
-/

namespace TypeExpr.Json.Numeral

/-! ### Rows of digits -/

/-- Whether the digits in front of a text end there. -/
def DigitsEnded (rest : List Char) : Prop :=
  ∀ c ∈ rest.head?, c.isDigit = false

section Digits

variable {ds rest : List Char} (hds : ∀ d ∈ ds, d.isDigit = true) (hrest : DigitsEnded rest)

include hds hrest

theorem takeWhile_digits : (ds ++ rest).takeWhile Char.isDigit = ds := by
  rw [List.takeWhile_append_of_pos hds]
  cases rest with
  | nil => simp
  | cons c rest => rw [List.takeWhile_cons_of_neg (by simp [hrest c rfl]), List.append_nil]

theorem dropWhile_digits : (ds ++ rest).dropWhile Char.isDigit = rest := by
  rw [List.dropWhile_append_of_pos hds]
  cases rest with
  | nil => rfl
  | cons c rest => rw [List.dropWhile_cons_of_neg (by simp [hrest c rfl])]

end Digits

/-- A text begins with a row of digits, perhaps an empty one. -/
theorem exists_digits (s : List Char) :
    ∃ ds rest, s = ds ++ rest ∧ (∀ d ∈ ds, d.isDigit = true) ∧ DigitsEnded rest := by
  refine ⟨s.takeWhile Char.isDigit, s.dropWhile Char.isDigit,
    List.takeWhile_append_dropWhile.symm, fun d hd => ?_, fun c hc => ?_⟩
  · exact List.all_eq_true.mp List.all_takeWhile d hd
  · have h := List.head?_dropWhile_not Char.isDigit s
    rw [Option.mem_def.mp hc] at h
    simpa using h

/-! ### Spellings -/

/-- A row of digits, of which there is one at least. -/
def Digits (ds : List Char) : Prop :=
  ds ≠ [] ∧ ∀ d ∈ ds, d.isDigit = true

/-- **The spellings of the whole digits.** A zero stands alone. -/
inductive SpellsWhole : List Char → Nat → Prop
  | zero : SpellsWhole ['0'] 0
  | positive {d : Char} {ds : List Char} : d ≠ '0' → Digits (d :: ds) →
    SpellsWhole (d :: ds) (Nat.ofDigitChars 10 (d :: ds) 0)

/-- **The spellings of a fraction**, none among them. -/
inductive SpellsFraction : List Char → List (Fin 10) → Prop
  | none : SpellsFraction [] []
  | some {ds : List Char} : Digits ds →
    SpellsFraction ('.' :: ds) (ds.map fun d => Fin.ofNat 10 (d.toNat - '0'.toNat))

/-- **The spellings of the sign of an exponent**, which may be a plus sign as well. -/
inductive SpellsExponentSign : List Char → Bool → Prop
  | none : SpellsExponentSign [] false
  | plus : SpellsExponentSign ['+'] false
  | minus : SpellsExponentSign ['-'] true

/-- **The spellings of an exponent**, none among them. -/
inductive SpellsExponent : List Char → Option Int → Prop
  | none : SpellsExponent [] none
  | some {mark : Char} {sign ds : List Char} {negative : Bool} : mark = 'e' ∨ mark = 'E' →
    SpellsExponentSign sign negative → Digits ds →
      SpellsExponent (mark :: (sign ++ ds))
        (some (if negative then -(Nat.ofDigitChars 10 ds 0) else Nat.ofDigitChars 10 ds 0))

/-- **The spellings of a numeral.** -/
inductive Spells : List Char → Numeral → Prop
  | mk {ws fs es : List Char} {negative : Bool} {whole : Nat} {fraction : List (Fin 10)}
    {exponent : Option Int} : SpellsWhole ws whole → SpellsFraction fs fraction →
    SpellsExponent es exponent →
      Spells ((if negative then ['-'] else []) ++ (ws ++ (fs ++ es)))
        ⟨negative, whole, fraction, exponent⟩

/-- **What may follow a numeral**: nothing that would continue one of its parts or add another. -/
structure Stops (n : Numeral) (rest : List Char) : Prop where
  digits : DigitsEnded rest
  mark : n.exponent = none → ∀ c ∈ rest.head?, c ≠ 'e' ∧ c ≠ 'E'
  point : n.fraction = [] → n.exponent = none → rest.head? ≠ some '.'

theorem SpellsWhole.digits {ds : List Char} {n : Nat} (h : SpellsWhole ds n) : Digits ds := by
  cases h with
  | zero => exact ⟨by simp, by simp⟩
  | positive _ hds => exact hds

theorem SpellsWhole.eq_ofDigitChars {ds : List Char} {n : Nat} (h : SpellsWhole ds n) :
    n = Nat.ofDigitChars 10 ds 0 := by
  cases h <;> rfl

/-- Whether a numeral of whatever parts in front of a text ends there. -/
def Ended (rest : List Char) : Prop :=
  ∀ c ∈ rest.head?, c.isDigit = false ∧ c ≠ '.' ∧ c ≠ 'e' ∧ c ≠ 'E'

theorem Ended.stops {rest : List Char} (h : Ended rest) (n : Numeral) : n.Stops rest where
  digits := fun c hc => (h c hc).1
  mark := fun _ c hc => (h c hc).2.2
  point := fun _ _ hpoint => (h '.' hpoint).2.1 rfl

/-! ### Reading -/

theorem scanDigits_eq_some_iff {s rest : List Char} {n : Nat} :
    scanDigits s = some (n, rest) ↔
      ∃ ds, s = ds ++ rest ∧ Digits ds ∧ n = Nat.ofDigitChars 10 ds 0 ∧ DigitsEnded rest := by
  constructor
  · intro h
    obtain ⟨ds, after, rfl, hds, hafter⟩ := exists_digits s
    rw [scanDigits, takeWhile_digits hds hafter, dropWhile_digits hds hafter] at h
    split at h
    · cases h
    · rename_i hne
      obtain ⟨rfl, rfl⟩ := Prod.mk.inj (Option.some.inj h)
      exact ⟨ds, rfl, ⟨hne, hds⟩, rfl, hafter⟩
  · rintro ⟨ds, rfl, ⟨hne, hds⟩, rfl, hrest⟩
    rw [scanDigits, takeWhile_digits hds hrest, dropWhile_digits hds hrest]
    split
    · exact absurd rfl hne
    · rfl

theorem scanWhole_eq_some_iff {s rest : List Char} {n : Nat} :
    scanWhole s = some (n, rest) ↔
      ∃ ds, s = ds ++ rest ∧ SpellsWhole ds n ∧ DigitsEnded rest := by
  constructor
  · intro h
    obtain ⟨ds, after, rfl, hds, hafter⟩ := exists_digits s
    rw [scanWhole] at h
    rw [takeWhile_digits hds hafter] at h
    split at h
    · cases h
    · rename_i hzero
      obtain ⟨es, heq, hes, rfl, hrest⟩ := scanDigits_eq_some_iff.mp h
      -- the digits that were tried for a leading zero are those that are read
      obtain rfl : es = ds := by
        rw [← takeWhile_digits hes.2 hrest, ← heq, takeWhile_digits hds hafter]
      obtain rfl := List.append_cancel_left heq
      refine ⟨es, rfl, ?_, hrest⟩
      rcases es with _ | ⟨d, _ | ⟨e, es⟩⟩
      · exact absurd rfl hes.1
      · by_cases hd : d = '0'
        · subst hd
          exact .zero
        · exact .positive hd hes
      · exact .positive (fun hd => hzero e es (by rw [hd])) hes
  · rintro ⟨ds, rfl, hds, hrest⟩
    have hdigits : Digits ds := hds.digits
    rw [scanWhole]
    rw [takeWhile_digits hdigits.2 hrest]
    split
    · rename_i d es
      -- a zero in front of other digits is no spelling
      cases hds with
      | positive hd _ => exact absurd rfl hd
    · exact scanDigits_eq_some_iff.mpr ⟨ds, rfl, hdigits, hds.eq_ofDigitChars, hrest⟩

theorem scanFraction_eq_some_iff {s rest : List Char} {fraction : List (Fin 10)} :
    scanFraction s = some (fraction, rest) ↔
      ∃ fs, s = fs ++ rest ∧ SpellsFraction fs fraction ∧
        (fraction = [] → rest.head? ≠ some '.') ∧ (fraction ≠ [] → DigitsEnded rest) := by
  constructor
  · intro h
    unfold scanFraction at h
    split at h
    · rename_i r
      obtain ⟨ds, after, rfl, hds, hafter⟩ := exists_digits r
      rw [takeWhile_digits hds hafter, dropWhile_digits hds hafter] at h
      split at h
      · cases h
      · rename_i hne
        obtain ⟨rfl, rfl⟩ := Prod.mk.inj (Option.some.inj h)
        exact ⟨'.' :: ds, rfl, .some ⟨hne, hds⟩, fun hnil => absurd (List.map_eq_nil_iff.mp hnil) hne,
          fun _ => hafter⟩
    · rename_i hpoint
      obtain ⟨rfl, rfl⟩ := Prod.mk.inj (Option.some.inj h)
      refine ⟨[], rfl, .none, fun _ hhead => ?_, fun hne => absurd rfl hne⟩
      obtain ⟨r, rfl⟩ := List.head?_eq_some_iff.mp hhead
      exact hpoint r rfl
  · rintro ⟨fs, rfl, hfs, hpoint, hdigits⟩
    cases hfs with
    | none =>
      rw [List.nil_append, scanFraction]
      rintro r rfl
      exact hpoint rfl rfl
    | some hds =>
      have hrest := hdigits (by simpa using hds.1)
      rw [List.cons_append, scanFraction, takeWhile_digits hds.2 hrest,
        dropWhile_digits hds.2 hrest]
      split
      · exact absurd rfl hds.1
      · rfl

theorem scanExponentSign_eq {sign ds : List Char} {negative : Bool}
    (hsign : SpellsExponentSign sign negative) (hds : Digits ds) (rest : List Char) :
    scanExponentSign (sign ++ (ds ++ rest)) = (negative, ds ++ rest) := by
  obtain ⟨d, es, rfl⟩ := List.exists_cons_of_ne_nil hds.1
  have hdigit := hds.2 d List.mem_cons_self
  cases hsign with
  | none =>
    rw [List.nil_append, List.cons_append, scanExponentSign, scanSign]
    · rintro r heq
      rw [(List.cons.inj heq).1] at hdigit
      cases hdigit
    · rintro r heq
      rw [(List.cons.inj heq).1] at hdigit
      cases hdigit
  | plus => rfl
  | minus => rfl

/-- The sign in front of what is read as digits is one of the three. -/
theorem exists_scanExponentSign (s : List Char) :
    ∃ sign, s = sign ++ (scanExponentSign s).2 ∧
      SpellsExponentSign sign (scanExponentSign s).1 := by
  unfold scanExponentSign
  split
  · exact ⟨['+'], rfl, .plus⟩
  · unfold scanSign
    split
    · exact ⟨['-'], rfl, .minus⟩
    · exact ⟨[], rfl, .none⟩

theorem scanExponent_eq_some_iff {s rest : List Char} {exponent : Option Int} :
    scanExponent s = some (exponent, rest) ↔
      ∃ es, s = es ++ rest ∧ SpellsExponent es exponent ∧
        (exponent = none → ∀ c ∈ rest.head?, c ≠ 'e' ∧ c ≠ 'E') ∧
        (exponent ≠ none → DigitsEnded rest) := by
  have hmarked {mark : Char} (hmark : mark = 'e' ∨ mark = 'E') (r : List Char) :
      scanExponent (mark :: r) = (scanDigits (scanExponentSign r).2).map fun got =>
        (some (if (scanExponentSign r).1 then -(got.1 : Int) else got.1), got.2) := by
    rcases hmark with rfl | rfl <;> rfl
  have hplain (hmark : ∀ c ∈ s.head?, c ≠ 'e' ∧ c ≠ 'E') : scanExponent s = some (none, s) := by
    rw [scanExponent]
    · rintro r rfl
      exact (hmark _ rfl).1 rfl
    · rintro r rfl
      exact (hmark _ rfl).2 rfl
  constructor
  · intro h
    by_cases hs : ∃ mark r, s = mark :: r ∧ (mark = 'e' ∨ mark = 'E')
    · obtain ⟨mark, r, rfl, hmark⟩ := hs
      rw [hmarked hmark, Option.map_eq_some_iff] at h
      obtain ⟨⟨n, after⟩, hdigits, heq⟩ := h
      obtain ⟨rfl, rfl⟩ := Prod.mk.inj heq
      obtain ⟨sign, hr, hsign⟩ := exists_scanExponentSign r
      obtain ⟨ds, hsplit, hds, rfl, hrest⟩ := scanDigits_eq_some_iff.mp hdigits
      rw [hsplit] at hr
      refine ⟨mark :: (sign ++ ds), ?_, .some hmark hsign hds, by simp, fun _ => hrest⟩
      rw [List.cons_append, List.append_assoc, ← hr]
    · have hmark : ∀ c ∈ s.head?, c ≠ 'e' ∧ c ≠ 'E' := by
        intro c hc
        obtain ⟨r, rfl⟩ := List.head?_eq_some_iff.mp (Option.mem_def.mp hc)
        exact not_or.mp fun h => hs ⟨c, r, rfl, h⟩
      rw [hplain hmark] at h
      obtain ⟨rfl, rfl⟩ := Prod.mk.inj (Option.some.inj h)
      exact ⟨[], rfl, .none, fun _ => hmark, fun hne => absurd rfl hne⟩
  · rintro ⟨es, rfl, hes, hmark, hdigits⟩
    cases hes with
    | none => exact hplain (hmark rfl)
    | some hm hsign hds =>
      rw [List.cons_append, List.append_assoc, hmarked hm, scanExponentSign_eq hsign hds,
        scanDigits_eq_some_iff.mpr ⟨_, rfl, hds, rfl, hdigits (by simp)⟩]
      rfl

theorem Spells.exists_cons {cs : List Char} {n : Numeral} (h : Spells cs n) :
    ∃ d ds, cs = d :: ds ∧ (d = '-' ∨ d.isDigit = true) := by
  obtain ⟨hws, -, -⟩ := h
  rename_i negative _ _ _
  cases negative with
  | true => exact ⟨'-', _, rfl, Or.inl rfl⟩
  | false =>
    obtain ⟨d, ds, rfl⟩ := List.exists_cons_of_ne_nil hws.digits.1
    exact ⟨d, _, rfl, Or.inr (hws.digits.2 d List.mem_cons_self)⟩

theorem scanSign_eq {ws : List Char} (hws : Digits ws) (negative : Bool) (rest : List Char) :
    scanSign ((if negative then ['-'] else []) ++ (ws ++ rest)) = (negative, ws ++ rest) := by
  cases negative with
  | true => rfl
  | false =>
    obtain ⟨d, ds, rfl⟩ := List.exists_cons_of_ne_nil hws.1
    have hdigit := hws.2 d List.mem_cons_self
    rw [if_neg (by simp), List.nil_append, List.cons_append, scanSign]
    intro r heq
    rw [(List.cons.inj heq).1] at hdigit
    cases hdigit

theorem append_scanSign (s : List Char) :
    (if (scanSign s).1 then ['-'] else []) ++ (scanSign s).2 = s := by
  unfold scanSign
  split <;> rfl

section Parts

variable {fs es rest : List Char} {fraction : List (Fin 10)} {exponent : Option Int}

theorem digitsEnded_exponent (hes : SpellsExponent es exponent) (hrest : DigitsEnded rest) :
    DigitsEnded (es ++ rest) := by
  cases hes with
  | none => exact hrest
  | some hmark =>
    rintro c ⟨⟩
    rcases hmark with rfl | rfl <;> rfl

theorem digitsEnded_fraction (hfs : SpellsFraction fs fraction) (hrest : DigitsEnded rest) :
    DigitsEnded (fs ++ rest) := by
  cases hfs with
  | none => exact hrest
  | some =>
    rintro c ⟨⟩
    rfl

theorem head?_exponent_ne (hes : SpellsExponent es exponent)
    (hrest : exponent = none → rest.head? ≠ some '.') : (es ++ rest).head? ≠ some '.' := by
  cases hes with
  | none => exact hrest rfl
  | some hmark => rcases hmark with rfl | rfl <;> simp

end Parts

/-- **A numeral is read from each of its spellings, and from nothing else**, if it stops where the
rest begins. -/
theorem scan_eq_some_iff {s rest : List Char} {n : Numeral} :
    scan s = some (n, rest) ↔ ∃ cs, s = cs ++ rest ∧ Spells cs n ∧ n.Stops rest := by
  constructor
  · intro h
    have hsign := append_scanSign s
    simp only [scan] at h
    split at h
    · cases h
    · rename_i whole s₁ hwhole
      split at h
      · cases h
      · rename_i fraction s₂ hfraction
        rw [Option.map_eq_some_iff] at h
        obtain ⟨⟨exponent, after⟩, hexponent, heq⟩ := h
        obtain ⟨rfl, rfl⟩ := Prod.mk.inj heq
        obtain ⟨ws, hs, hws, hended⟩ := scanWhole_eq_some_iff.mp hwhole
        obtain ⟨fs, rfl, hfs, hpoint, hdigits⟩ := scanFraction_eq_some_iff.mp hfraction
        obtain ⟨es, rfl, hes, hmark, hlast⟩ := scanExponent_eq_some_iff.mp hexponent
        refine ⟨_, hsign.symm.trans ?_, .mk hws hfs hes, ?_, hmark, ?_⟩
        · rw [hs]
          simp only [List.append_assoc]
        · -- the digits in front of the rest are those of the last part that there is
          cases hes with
          | some => exact hlast (by simp)
          | none =>
            cases hfs with
            | some hds => exact hdigits (by simpa using hds.1)
            | none => exact hended
        · rintro rfl rfl
          cases hes
          exact hpoint rfl
  · rintro ⟨cs, rfl, ⟨hws, hfs, hes⟩, hdigits, hmark, hpoint⟩
    -- from the last part to the first, since each has to end where the next one begins
    have hexponent := scanExponent_eq_some_iff.mpr ⟨_, rfl, hes, hmark, fun _ => hdigits⟩
    have hended := digitsEnded_exponent hes hdigits
    have hfraction := scanFraction_eq_some_iff.mpr ⟨_, rfl, hfs,
      fun hnil => head?_exponent_ne hes (hpoint hnil), fun _ => hended⟩
    have hwhole := scanWhole_eq_some_iff.mpr ⟨_, rfl, hws, digitsEnded_fraction hfs hended⟩
    simp only [List.append_assoc, scan, scanSign_eq hws.digits, hwhole, hfraction, hexponent,
      Option.map_some]

/-! ### Writing -/

theorem isDigit_toDigits (n : Nat) : ∀ d ∈ Nat.toDigits 10 n, d.isDigit = true :=
  fun _ hd => Nat.isDigit_of_mem_toDigits (by decide) (by decide) hd

theorem digits_toDigits (n : Nat) : Digits (Nat.toDigits 10 n) :=
  ⟨Nat.toDigits_ne_nil, isDigit_toDigits n⟩

/-- The digits of a positive number do not begin with a zero. -/
theorem head?_toDigits_ne {n : Nat} (hn : 0 < n) : (Nat.toDigits 10 n).head? ≠ some '0' := by
  induction n using Nat.strongRecOn with
  | ind n ih =>
    rcases Nat.lt_or_ge n 10 with hlt | hge
    · rw [Nat.toDigits_of_lt_base hlt]
      have hdigit : ∀ m < 10, 0 < m → [m.digitChar].head? ≠ some '0' := by decide
      exact hdigit n hlt hn
    · have hsplit := Nat.toDigits_append_toDigits (b := 10) (n := n / 10) (d := n % 10)
        (by decide) (by omega) (by omega)
      rw [Nat.div_add_mod] at hsplit
      rw [← hsplit, List.head?_append,
        Option.or_of_isSome (List.isSome_head?.mpr Nat.toDigits_ne_nil)]
      exact ih (n / 10) (by omega) (by omega)

theorem spellsWhole_toDigits (n : Nat) : SpellsWhole (Nat.toDigits 10 n) n := by
  rcases Nat.eq_zero_or_pos n with rfl | hn
  · exact .zero
  · obtain ⟨d, ds, h⟩ := List.exists_cons_of_ne_nil (Nat.toDigits_ne_nil (n := n) (b := 10))
    have hzero : d ≠ '0' := by
      rintro rfl
      exact head?_toDigits_ne hn (by rw [h]; rfl)
    have hvalue : Nat.ofDigitChars 10 (d :: ds) 0 = n := by
      rw [← h, Nat.ofDigitChars_ten_toDigits]
    have hspells := SpellsWhole.positive hzero (h ▸ digits_toDigits n)
    rwa [hvalue, ← h] at hspells

theorem digit_digitChar (d : Fin 10) :
    Fin.ofNat 10 (d.val.digitChar.toNat - '0'.toNat) = d ∧ d.val.digitChar.isDigit = true := by
  revert d
  decide

theorem spellsFraction_write (fraction : List (Fin 10)) :
    SpellsFraction (writeFraction fraction) fraction := by
  cases fraction with
  | nil => exact .none
  | cons d ds =>
    have hds : ∀ c ∈ (d :: ds).map fun d => d.val.digitChar, c.isDigit = true := by
      intro c hc
      obtain ⟨d, -, rfl⟩ := List.mem_map.mp hc
      exact (digit_digitChar d).2
    have hvalue : ((d :: ds).map fun d => d.val.digitChar).map
        (fun c => Fin.ofNat 10 (c.toNat - '0'.toNat)) = d :: ds := by
      rw [List.map_map]
      exact List.map_id'' (fun d => (digit_digitChar d).1) (d :: ds)
    have hspells := SpellsFraction.some ⟨by simp, hds⟩
    rwa [hvalue] at hspells

theorem spellsExponent_write (exponent : Option Int) :
    SpellsExponent (writeExponent exponent) exponent := by
  rcases exponent with _ | n | n
  · exact .none
  · have hspells := SpellsExponent.some (Or.inl rfl) .none (digits_toDigits n)
    rwa [Nat.ofDigitChars_ten_toDigits] at hspells
  · have hspells := SpellsExponent.some (Or.inl rfl) .minus (digits_toDigits (n + 1))
    rwa [Nat.ofDigitChars_ten_toDigits] at hspells

/-- **What is written for a numeral spells it.** -/
theorem spells_write (n : Numeral) : Spells n.write n := by
  obtain ⟨negative, whole, fraction, exponent⟩ := n
  have hspells := @Spells.mk _ _ _ negative _ _ _ (spellsWhole_toDigits whole)
    (spellsFraction_write fraction) (spellsExponent_write exponent)
  simpa only [write, List.append_assoc] using hspells

/-! ### Plain digits -/

/-- A digit is the one that is written for its value. -/
theorem digitChar_of_isDigit {d : Char} (hd : d.isDigit = true) :
    d.toNat - '0'.toNat < 10 ∧ (d.toNat - '0'.toNat).digitChar = d := by
  obtain ⟨hlow, hhigh⟩ : 48 ≤ d.toNat ∧ d.toNat ≤ 57 := by
    simpa [Char.isDigit, UInt32.le_iff_toNat_le] using hd
  have hlt : d.toNat - '0'.toNat < 10 := by
    change d.toNat - 48 < 10
    omega
  refine ⟨hlt, Char.toNat_inj.mp ?_⟩
  rw [Nat.toNat_digitChar_of_lt_ten hlt]
  change 48 + (d.toNat - 48) = d.toNat
  omega

/-- Digits behind those of a positive number are written behind them. -/
theorem toDigits_ofDigitChars {ds : List Char} (hds : ∀ d ∈ ds, d.isDigit = true) {m : Nat}
    (hm : 0 < m) : Nat.toDigits 10 (Nat.ofDigitChars 10 ds m) = Nat.toDigits 10 m ++ ds := by
  induction ds generalizing m with
  | nil => simp
  | cons d ds ih =>
    obtain ⟨hd, hds⟩ := List.forall_mem_cons.mp hds
    obtain ⟨hlt, hchar⟩ := digitChar_of_isDigit hd
    rw [Nat.ofDigitChars_cons, ih hds (by omega),
      ← Nat.toDigits_append_toDigits (by decide) hm hlt, Nat.toDigits_of_lt_base hlt, hchar,
      List.append_assoc, List.singleton_append]

/-- **Whole digits are written as they are spelled**, since no zero stands in front. -/
theorem SpellsWhole.toDigits_eq {ds : List Char} {n : Nat} (h : SpellsWhole ds n) :
    Nat.toDigits 10 n = ds := by
  cases h with
  | zero => rfl
  | @positive d ds hzero hdigits =>
    obtain ⟨hd, hds⟩ := List.forall_mem_cons.mp hdigits.2
    obtain ⟨hlt, hchar⟩ := digitChar_of_isDigit hd
    have hpos : 0 < d.toNat - '0'.toNat := by
      refine Nat.pos_of_ne_zero fun hnil => hzero ?_
      rw [← hchar, hnil]
      rfl
    rw [Nat.ofDigitChars_cons, Nat.mul_zero, Nat.zero_add, toDigits_ofDigitChars hds hpos,
      Nat.toDigits_of_lt_base hlt, hchar, List.singleton_append]

theorem SpellsFraction.eq_nil {fs : List Char} (h : SpellsFraction fs []) : fs = [] := by
  generalize hnil : ([] : List (Fin 10)) = fraction at h
  cases h with
  | none => rfl
  | some hds => exact absurd (List.map_eq_nil_iff.mp hnil.symm) hds.1

/-- A numeral that writes a natural number is spelled by its digits alone. -/
theorem Spells.spellsWhole {cs : List Char} {n : Numeral} (h : Spells cs n) {v : Nat}
    (hv : n.natural? = some v) : SpellsWhole cs v := by
  obtain ⟨hws, hfs, hes⟩ := h
  rename_i negative whole fraction exponent
  rw [natural?] at hv
  split at hv
  · rename_i hplain
    obtain ⟨rfl, rfl, rfl⟩ : negative = false ∧ fraction = [] ∧ exponent = none := hplain
    obtain rfl : whole = v := Option.some.inj hv
    obtain rfl := hfs.eq_nil
    cases hes
    simpa using hws
  · cases hv

/-- **A numeral in plain digits** is one that is spelled by digits alone, and the number that it
writes is the value of the digits. -/
theorem Spells.natural?_eq_some_iff {cs : List Char} {n : Numeral} (h : Spells cs n) {v : Nat} :
    n.natural? = some v ↔ (∀ c ∈ cs, c.isDigit = true) ∧ Nat.ofDigitChars 10 cs 0 = v := by
  constructor
  · intro hv
    have hwhole := h.spellsWhole hv
    exact ⟨hwhole.digits.2, hwhole.eq_ofDigitChars.symm⟩
  · rintro ⟨hdigits, rfl⟩
    obtain ⟨hws, hfs, hes⟩ := h
    rename_i negative whole fraction exponent
    -- a minus, a point and the mark of an exponent are no digits
    cases negative with
    | true => exact absurd (hdigits '-' (by simp)) (by decide)
    | false =>
      cases hfs with
      | some => exact absurd (hdigits '.' (by simp)) (by decide)
      | none =>
        cases hes with
        | @some mark _ _ _ hmark =>
          have hdigit := hdigits mark (by simp)
          rcases hmark with rfl | rfl <;> exact absurd hdigit (by decide)
        | none => simp [natural?, hws.eq_ofDigitChars]

/-! ### Range -/

/-- Rounding adds less than the place value of the last digit that is kept, which is at most twice
the number. -/
theorem roundBits_le (bits : Nat) {n : Nat} (hn : n ≠ 0) : roundBits bits n ≤ 3 * n := by
  have hunit : Nat.pow 2 (n.log2 + 1 - bits) ≤ 2 * n := by
    calc Nat.pow 2 (n.log2 + 1 - bits) ≤ Nat.pow 2 (n.log2 + 1) :=
          Nat.pow_le_pow_right (by decide) (Nat.sub_le _ _)
      _ = 2 * Nat.pow 2 n.log2 := Nat.pow_succ'
      _ ≤ 2 * n := Nat.mul_le_mul_left 2 (Nat.log2_self_le hn)
  have hquotient : n / Nat.pow 2 (n.log2 + 1 - bits) * Nat.pow 2 (n.log2 + 1 - bits) ≤ n :=
    Nat.div_mul_le_self _ _
  unfold roundBits
  dsimp only
  split
  · rw [Nat.add_mul, Nat.one_mul]
    omega
  · omega

theorem leading_of_lt {n : Nat} (h : n < significandLimit) : leading n = (n, 0) := by
  rw [leading, if_pos h]

/-- **A natural number of 64 bits is in range.** -/
theorem inRange_ofNat {n : Nat} (h : n < significandLimit) : (ofNat n).inRange = true := by
  have hscaled : (ofNat n).scaled = (n, 0) := by
    simp only [scaled, ofNat, leading_of_lt h, extend]
    rfl
  rw [inRange]
  rw [hscaled]
  rcases Nat.eq_zero_or_pos n with rfl | hpos
  · rfl
  · have hround := roundBits_le 53 (Nat.ne_of_gt hpos)
    -- there is no exponent, so the power of ten is one
    have hone : roundBits 53 1 = 1 := by decide
    have hinfinity : 3 * significandLimit < infinity := by decide +kernel
    have hlt : roundBits 53 n * roundBits 53 1 < infinity := by
      rw [hone]
      omega
    simp [hlt]

end TypeExpr.Json.Numeral
