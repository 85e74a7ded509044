import Mathlib.Tactic.SplitIfs
import TypeExpr.Json.Quoted

/-!
# The spellings of a string

Between quotation marks a string has many spellings, since any of its characters may be escaped
and some in two ways. `Quoted.Spells` says by rules which texts spell which characters. The main
fact is that the reader, which takes one character after the other off the front of a text, reads
just these texts, each as the characters that it spells (`Quoted.scan_eq_some_iff`). The closing
mark cannot be taken for one of the characters, since no spelling begins with it.

A string that is passed over has any of these spellings, and others (`Quoted.skip_of_scan`).

What is written for a string is one of its spellings. The control characters without a letter of
their own are the one case with arithmetic in it: they are written by their code unit, whose last
two digits are quotient and remainder by sixteen.
-/

namespace TypeExpr.Json.Quoted

/-! ### Spellings -/

/-- **The spellings of a code unit**: four hexadecimal digits. -/
inductive SpellsUnit : List Char → Nat → Prop
  | mk {a b c d : Char} {u v w x : Nat} : hexValue? a = some u → hexValue? b = some v →
    hexValue? c = some w → hexValue? d = some x →
      SpellsUnit [a, b, c, d] (((u * 16 + v) * 16 + w) * 16 + x)

/-- **The spellings of a character** between quotation marks. A character beyond U+FFFF is escaped
by the two surrogates of its pair. -/
inductive SpellsChar : List Char → Char → Prop
  | plain {c : Char} : c ≠ '"' → c ≠ '\\' → 0x20 ≤ c.toNat → SpellsChar [c] c
  | letter {l c : Char} : ofLetter? l = some c → SpellsChar ['\\', l] c
  | unit {ds : List Char} {unit : Nat} : SpellsUnit ds unit → unit < 0xD800 ∨ 0xE000 ≤ unit →
    SpellsChar ('\\' :: 'u' :: ds) (Char.ofNat unit)
  | pair {ds es : List Char} {high low : Nat} : SpellsUnit ds high → 0xD800 ≤ high →
    high < 0xDC00 → SpellsUnit es low → 0xDC00 ≤ low → low < 0xE000 →
      SpellsChar ('\\' :: 'u' :: (ds ++ '\\' :: 'u' :: es))
        (Char.ofNat (0x10000 + (high - 0xD800) * 0x400 + (low - 0xDC00)))

/-- **The spellings of a string** between quotation marks, character by character. -/
inductive Spells : List Char → List Char → Prop
  | nil : Spells [] []
  | cons {ps qs : List Char} {c : Char} {cs : List Char} : SpellsChar ps c → Spells qs cs →
    Spells (ps ++ qs) (c :: cs)

/-! ### Reading one character -/

theorem SpellsUnit.codeUnit? {ds : List Char} {unit : Nat} (h : SpellsUnit ds unit)
    (rest : List Char) : codeUnit? (ds ++ rest) = some (unit, rest) := by
  obtain ⟨hu, hv, hw, hx⟩ := h
  simp [Quoted.codeUnit?, hu, hv, hw, hx]

theorem spellsUnit_of_codeUnit? {s rest : List Char} {unit : Nat}
    (h : codeUnit? s = some (unit, rest)) : ∃ ds, s = ds ++ rest ∧ SpellsUnit ds unit := by
  match s, h with
  | a :: b :: c :: d :: r, h =>
    simp only [codeUnit?, Option.bind_eq_bind, Option.bind_eq_some_iff, Option.pure_def,
      Option.some.injEq, Prod.mk.injEq] at h
    obtain ⟨u, hu, v, hv, w, hw, x, hx, rfl, rfl⟩ := h
    exact ⟨[a, b, c, d], rfl, .mk hu hv hw hx⟩

theorem spellsUnit_of_escapedUnit? {s rest : List Char} {unit : Nat}
    (h : escapedUnit? s = some (unit, rest)) :
    ∃ ds, s = '\\' :: 'u' :: (ds ++ rest) ∧ SpellsUnit ds unit := by
  unfold escapedUnit? at h
  split at h
  · obtain ⟨ds, rfl, hds⟩ := spellsUnit_of_codeUnit? h
    exact ⟨ds, rfl, hds⟩
  · cases h

/-- What is read behind a code unit makes an escape of it. -/
theorem spellsChar_of_ofUnit? {ds s rest : List Char} {unit : Nat} {c : Char}
    (hds : SpellsUnit ds unit) (h : ofUnit? unit s = some (c, rest)) :
    ∃ es, s = es ++ rest ∧ SpellsChar ('\\' :: 'u' :: (ds ++ es)) c := by
  unfold ofUnit? at h
  split_ifs at h with hunit
  · cases h
    rw [← List.append_nil ds] at hds
    exact ⟨[], rfl, .unit hds hunit⟩
  · -- half of a pair, and it is one only if the other half follows
    split at h
    · rename_i low after hlow
      split_ifs at h with hpair
      obtain ⟨rfl, rfl⟩ := Prod.mk.inj (Option.some.inj h)
      obtain ⟨es, rfl, hes⟩ := spellsUnit_of_escapedUnit? hlow
      refine ⟨'\\' :: 'u' :: es, rfl, .pair hds ?_ hpair.1 hes hpair.2.1 hpair.2.2⟩
      omega
    · cases h

/-- **A character is read from each of its spellings, and from nothing else.** The closing mark is
left to the reader of the string. -/
theorem next_eq_some_iff {s rest : List Char} {c : Char} (hs : s.head? ≠ some '"') :
    next s = some (c, rest) ↔ ∃ ps, s = ps ++ rest ∧ SpellsChar ps c := by
  constructor
  · intro h
    unfold next at h
    split at h
    · split at h
      · rename_i hunit
        obtain ⟨ds, rfl, hds⟩ := spellsUnit_of_codeUnit? hunit
        obtain ⟨es, rfl, hes⟩ := spellsChar_of_ofUnit? hds h
        exact ⟨_, by simp, hes⟩
      · cases h
    · rename_i l r hu
      simp only [Option.map_eq_some_iff, Prod.mk.injEq] at h
      obtain ⟨_, hl, rfl, rfl⟩ := h
      exact ⟨['\\', l], rfl, .letter hl⟩
    · rename_i d r _ _
      split_ifs at h with hd
      cases h
      rw [not_or, Nat.not_lt] at hd
      exact ⟨[c], rfl, .plain (fun hc => hs (by rw [hc]; rfl)) hd.1 hd.2⟩
    · cases h
  · rintro ⟨ps, rfl, h⟩
    cases h with
    | plain _ hslash hcontrol => simp [next, hslash, hcontrol]
    | letter hl =>
      rw [List.cons_append, List.cons_append, List.nil_append, next, hl, Option.map_some]
      rintro rfl
      cases hl
    | unit hds hunit =>
      rw [List.cons_append, List.cons_append, next, hds.codeUnit? rest]
      exact if_pos hunit
    | @pair ds es high low hds hhigh hhigh' hes hlow hlow' =>
      have hescaped : escapedUnit? ('\\' :: 'u' :: (es ++ rest)) = some (low, rest) :=
        hes.codeUnit? rest
      have hnot : ¬(high < 0xD800 ∨ 0xE000 ≤ high) := by omega
      rw [List.cons_append, List.cons_append, List.append_assoc, List.cons_append,
        List.cons_append, next, hds.codeUnit?]
      dsimp only
      rw [ofUnit?, if_neg hnot, hescaped]
      exact if_pos ⟨hhigh', hlow, hlow'⟩

/-! ### Reading up to the closing mark -/

/-- No spelling of a character begins with the mark that ends a string. -/
theorem SpellsChar.head?_ne {ps : List Char} {c : Char} (h : SpellsChar ps c) (rest : List Char) :
    (ps ++ rest).head? ≠ some '"' := by
  cases h with
  | plain hmark => simpa using hmark
  | letter | unit | pair => simp

/-- **A string is read from each of its spellings, and from nothing else**, up to its closing
mark. -/
theorem scan_eq_some_iff {s cs rest : List Char} :
    scan s = some (cs, rest) ↔ ∃ ps, s = ps ++ '"' :: rest ∧ Spells ps cs := by
  constructor
  · intro h
    fun_induction scan s generalizing cs rest with
    | case1 r =>
      cases h
      exact ⟨[], rfl, .nil⟩
    | case2 s hmark c r hnext ih =>
      simp only [Option.map_eq_some_iff, Prod.exists, Prod.mk.injEq] at h
      obtain ⟨cs', after, hscan, rfl, rfl⟩ := h
      have hs : s.head? ≠ some '"' := by
        intro hhead
        obtain ⟨r, rfl⟩ := List.head?_eq_some_iff.mp hhead
        exact hmark r rfl
      obtain ⟨ps, rfl, hps⟩ := (next_eq_some_iff hs).mp hnext
      obtain ⟨qs, rfl, hqs⟩ := ih hscan
      exact ⟨ps ++ qs, by rw [List.append_assoc], .cons hps hqs⟩
    | case3 => cases h
  · rintro ⟨ps, rfl, h⟩
    induction h with
    | nil => exact scan_mark rest
    | @cons ps qs c cs hps _ ih =>
      have hs := hps.head?_ne (qs ++ '"' :: rest)
      rw [List.append_assoc, scan_of_next hs ((next_eq_some_iff hs).mpr ⟨ps, rfl, hps⟩), ih]
      rfl

/-! ### Passing over -/

theorem skip_of_skipNext {s rest : List Char} (hs : s.head? ≠ some '"')
    (h : skipNext s = some rest) : skip s = skip rest := by
  rw [skip]
  · split
    · rename_i hnext
      obtain rfl := Option.some.inj (h.symm.trans hnext)
      rfl
    · rename_i hnext
      cases h.symm.trans hnext
  · rintro r rfl
    exact hs rfl

/-- A code unit is passed over, whether it is a character or half of one. -/
theorem SpellsUnit.skip_append {ds : List Char} {unit : Nat} (h : SpellsUnit ds unit)
    (rest : List Char) : skip ('\\' :: 'u' :: (ds ++ rest)) = skip rest := by
  refine skip_of_skipNext (by simp) ?_
  rw [skipNext, h.codeUnit? rest]
  rfl

theorem SpellsChar.skip_append {ps : List Char} {c : Char} (h : SpellsChar ps c)
    (rest : List Char) : skip (ps ++ rest) = skip rest := by
  have hs := h.head?_ne rest
  cases h with
  | plain _ hslash hcontrol =>
    refine skip_of_skipNext hs ?_
    simp [skipNext, hslash, hcontrol]
  | @letter l c hl =>
    refine skip_of_skipNext hs ?_
    rw [List.cons_append, List.cons_append, List.nil_append, skipNext, hl, Option.map_some]
    rintro rfl
    cases hl
  | unit hds => exact hds.skip_append rest
  | pair hds _ _ hes =>
    -- the two halves are passed over one after the other
    rw [List.cons_append, List.cons_append, List.append_assoc, List.cons_append,
      List.cons_append, hds.skip_append, hes.skip_append]

/-- **A string that can be read can be passed over**, and ends where it ends for who reads it. -/
theorem skip_of_scan {s cs rest : List Char} (h : scan s = some (cs, rest)) :
    skip s = some rest := by
  obtain ⟨ps, rfl, hps⟩ := scan_eq_some_iff.mp h
  induction hps with
  | nil => rw [List.nil_append, skip]
  | @cons ps qs c cs hchar hstring ih =>
    rw [List.append_assoc, hchar.skip_append]
    exact ih (scan_eq_some_iff.mpr ⟨qs, rfl, hstring⟩)

/-! ### Writing -/

theorem hexValue?_digitChar {n : Nat} (hn : n < 16) : hexValue? n.digitChar = some n := by
  revert n
  decide

/-- The letter of a short escape stands for the character that it was taken for. -/
theorem ofLetter?_of_letter? {c l : Char} (h : letter? c = some l) : ofLetter? l = some c := by
  unfold letter? at h
  split at h
  case h_6 => cases h
  all_goals
    obtain rfl := Option.some.inj h
    rfl

/-- A control character is spelled by its code unit. -/
theorem spellsChar_unit {c : Char} (hc : c.toNat < 0x20) :
    SpellsChar ['\\', 'u', '0', '0', (c.toNat / 16).digitChar, (c.toNat % 16).digitChar] c := by
  have hzero : hexValue? '0' = some 0 := rfl
  have hunit : ((0 * 16 + 0) * 16 + c.toNat / 16) * 16 + c.toNat % 16 = c.toNat := by omega
  have hspells := SpellsUnit.mk hzero hzero (hexValue?_digitChar (n := c.toNat / 16) (by omega))
    (hexValue?_digitChar (n := c.toNat % 16) (by omega))
  rw [hunit] at hspells
  have hchar := SpellsChar.unit hspells (Or.inl (by omega))
  rwa [Char.ofNat_toNat] at hchar

/-- **What is written for a character spells it.** -/
theorem spellsChar_escape (c : Char) : SpellsChar (escape c) c := by
  rw [escape]
  split_ifs with hmark hcontrol
  · rcases hmark with rfl | rfl <;> exact .letter rfl
  · cases hl : letter? c with
    | some l => exact .letter (ofLetter?_of_letter? hl)
    | none => exact spellsChar_unit hcontrol
  · rw [not_or] at hmark
    exact .plain hmark.1 hmark.2 (Nat.le_of_not_lt hcontrol)

/-- **What is written for a string spells it.** -/
theorem spells_escapes (cs : List Char) : Spells (cs.flatMap escape) cs := by
  induction cs with
  | nil => exact .nil
  | cons c cs ih => exact .cons (spellsChar_escape c) ih

end TypeExpr.Json.Quoted
