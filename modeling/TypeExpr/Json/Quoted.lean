/-!
# Quoted strings

A JSON string is written between quotation marks. Inside them every character stands for
itself, except that the quotation mark, the backslash and the control characters below
U+0020 must be escaped, and that any character *may* be.

Writing takes the shortest way: it escapes only what it must, by a letter where there is
one (`\n`) and by four hexadecimal digits where there is none (`\u001f`). Reading accepts
every escape. Four digits name a UTF-16 code unit, so a character beyond U+FFFF takes two
of them, a high surrogate and a low one, and a surrogate without its partner is no
character at all.

Both directions go character by character: `escape` writes one, `next` reads one, and
`scan` repeats `next` up to the closing mark.

A string whose characters nobody wants can be passed over (`skip`). Then an escape need only be
written as one, and half of a surrogate pair is as good as a whole one.
-/

namespace TypeExpr.Json.Quoted

/-! ### Writing -/

/-- The letter of a short escape for a control character. -/
def letter? : Char → Option Char
  | '\x08' => some 'b'
  | '\t' => some 't'
  | '\n' => some 'n'
  | '\x0c' => some 'f'
  | '\r' => some 'r'
  | _ => none

/-- One character as it is written between quotation marks. -/
def escape (c : Char) : List Char :=
  if c = '"' ∨ c = '\\' then ['\\', c]
  else if c.toNat < 0x20 then
    match letter? c with
    | some l => ['\\', l]
    | none => ['\\', 'u', '0', '0', (c.toNat / 16).digitChar, (c.toNat % 16).digitChar]
  else [c]

/-- A string in quotation marks. -/
def write (cs : List Char) : List Char :=
  '"' :: (cs.flatMap escape ++ ['"'])

/-! ### Reading one character -/

/-- The character that a backslash and this letter stand for. -/
def ofLetter? : Char → Option Char
  | '"' => some '"'
  | '\\' => some '\\'
  | '/' => some '/'
  | 'b' => some '\x08'
  | 'f' => some '\x0c'
  | 'n' => some '\n'
  | 'r' => some '\r'
  | 't' => some '\t'
  | _ => none

/-- The value of a hexadecimal digit, in either case. -/
def hexValue? (c : Char) : Option Nat :=
  if '0' ≤ c ∧ c ≤ '9' then some (c.toNat - '0'.toNat)
  else if 'a' ≤ c ∧ c ≤ 'f' then some (c.toNat - 'a'.toNat + 10)
  else if 'A' ≤ c ∧ c ≤ 'F' then some (c.toNat - 'A'.toNat + 10)
  else none

/-- The code unit named by four hexadecimal digits at the front, and what follows. -/
def codeUnit? : List Char → Option (Nat × List Char)
  | a :: b :: c :: d :: rest => do
    let a ← hexValue? a
    let b ← hexValue? b
    let c ← hexValue? c
    let d ← hexValue? d
    return (((a * 16 + b) * 16 + c) * 16 + d, rest)
  | _ => none

/-- The code unit escaped at the front. -/
def escapedUnit? : List Char → Option (Nat × List Char)
  | '\\' :: 'u' :: rest => codeUnit? rest
  | _ => none

/-- The character that begins with a code unit: the unit itself, or the pair it forms as
the high surrogate with an escaped low surrogate that follows at once. -/
def ofUnit? (unit : Nat) (rest : List Char) : Option (Char × List Char) :=
  if unit < 0xD800 ∨ 0xE000 ≤ unit then some (Char.ofNat unit, rest)
  else
    match escapedUnit? rest with
    | some (low, rest) =>
      if unit < 0xDC00 ∧ 0xDC00 ≤ low ∧ low < 0xE000 then
        some (Char.ofNat (0x10000 + (unit - 0xD800) * 0x400 + (low - 0xDC00)), rest)
      else none
    | none => none

/-- Reads one character of a string, escaped or not. There is none where a control
character stands unescaped or an escape is not one of JSON's. -/
def next : List Char → Option (Char × List Char)
  | '\\' :: 'u' :: rest =>
    match codeUnit? rest with
    | some (unit, rest) => ofUnit? unit rest
    | none => none
  | '\\' :: l :: rest => (ofLetter? l).map (·, rest)
  | c :: rest => if c = '\\' ∨ c.toNat < 0x20 then none else some (c, rest)
  | [] => none

theorem length_lt_of_codeUnit? {s rest : List Char} {unit : Nat}
    (h : codeUnit? s = some (unit, rest)) : rest.length < s.length := by
  match s, h with
  | a :: b :: c :: d :: r, h =>
    simp only [codeUnit?, Option.bind_eq_bind, Option.bind_eq_some_iff, Option.pure_def,
      Option.some.injEq, Prod.mk.injEq] at h
    obtain ⟨_, _, _, _, _, _, _, _, _, rfl⟩ := h
    simp only [List.length_cons]
    omega

theorem length_lt_of_escapedUnit? {s rest : List Char} {unit : Nat}
    (h : escapedUnit? s = some (unit, rest)) : rest.length < s.length := by
  unfold escapedUnit? at h
  split at h
  · have := length_lt_of_codeUnit? h
    simp only [List.length_cons]
    omega
  · exact absurd h (by simp)

theorem length_le_of_ofUnit? {s rest : List Char} {unit : Nat} {c : Char}
    (h : ofUnit? unit s = some (c, rest)) : rest.length ≤ s.length := by
  unfold ofUnit? at h
  split at h
  · simp only [Option.some.injEq, Prod.mk.injEq] at h
    exact h.2 ▸ Nat.le_refl _
  · split at h
    · rename_i low r hlow
      split at h
      · simp only [Option.some.injEq, Prod.mk.injEq] at h
        exact h.2 ▸ Nat.le_of_lt (length_lt_of_escapedUnit? hlow)
      · exact absurd h (by simp)
    · exact absurd h (by simp)

/-- Reading a character leaves less to read. -/
theorem length_lt_of_next {s rest : List Char} {c : Char} (h : next s = some (c, rest)) :
    rest.length < s.length := by
  unfold next at h
  split at h
  · split at h
    · rename_i hunit
      have hlt := length_lt_of_codeUnit? hunit
      have hle := length_le_of_ofUnit? h
      simp only [List.length_cons]
      omega
    · exact absurd h (by simp)
  · simp only [Option.map_eq_some_iff, Prod.mk.injEq] at h
    obtain ⟨_, _, _, rfl⟩ := h
    simp only [List.length_cons]
    omega
  · split at h
    · exact absurd h (by simp)
    · simp only [Option.some.injEq, Prod.mk.injEq] at h
      obtain ⟨_, rfl⟩ := h
      simp only [List.length_cons]
      omega
  · exact absurd h (by simp)

/-! ### Reading up to the closing mark -/

/-- Reads the rest of a string whose opening mark has been read: its characters and what
follows the closing mark. -/
def scan (s : List Char) : Option (List Char × List Char) :=
  match s with
  | '"' :: rest => some ([], rest)
  | s =>
    match _hnext : next s with
    | some (c, rest) => (scan rest).map fun (cs, after) => (c :: cs, after)
    | none => none
termination_by s.length
decreasing_by exact length_lt_of_next _hnext

/-- The closing mark ends a string. -/
theorem scan_mark (rest : List Char) : scan ('"' :: rest) = some ([], rest) := by
  rw [scan]

/-- A character in front of a string belongs to it, unless the text begins with the closing
mark. -/
theorem scan_of_next {s rest : List Char} {c : Char} (hs : s.head? ≠ some '"')
    (h : next s = some (c, rest)) :
    scan s = (scan rest).map fun (cs, after) => (c :: cs, after) := by
  rw [scan]
  · split
    · rename_i hnext
      obtain ⟨rfl, rfl⟩ : c = _ ∧ rest = _ := by simpa [h] using hnext
      rfl
    · rename_i hnext
      exact absurd (h.symm.trans hnext) (by simp)
  · rintro r rfl
    exact hs rfl

/-- What follows a string is less than there was. -/
theorem length_lt_of_scan {s cs rest : List Char} (h : scan s = some (cs, rest)) :
    rest.length < s.length := by
  fun_induction scan s generalizing cs rest with
  | case1 r =>
    simp only [Option.some.injEq, Prod.mk.injEq] at h
    simp [h.2]
  | case2 s _ c r hnext ih =>
    simp only [Option.map_eq_some_iff, Prod.exists, Prod.mk.injEq] at h
    obtain ⟨cs', after, hscan, -, rfl⟩ := h
    exact Nat.lt_trans (ih hscan) (length_lt_of_next hnext)
  | case3 => exact absurd h (by simp)

/-! ### Passing over -/

/-- Passes over one character of a string, or over half of a surrogate pair. -/
def skipNext : List Char → Option (List Char)
  | '\\' :: 'u' :: rest => (codeUnit? rest).map Prod.snd
  | '\\' :: l :: rest => (ofLetter? l).map fun _ => rest
  | c :: rest => if c = '\\' ∨ c.toNat < 0x20 then none else some rest
  | [] => none

theorem length_lt_of_skipNext {s rest : List Char} (h : skipNext s = some rest) :
    rest.length < s.length := by
  unfold skipNext at h
  split at h
  · simp only [Option.map_eq_some_iff, Prod.exists] at h
    obtain ⟨_, _, hunit, rfl⟩ := h
    have hlt := length_lt_of_codeUnit? hunit
    simp only [List.length_cons]
    omega
  · simp only [Option.map_eq_some_iff] at h
    obtain ⟨_, _, rfl⟩ := h
    simp only [List.length_cons]
    omega
  · split at h
    · exact absurd h (by simp)
    · obtain rfl := Option.some.inj h
      exact Nat.lt_succ_self _
  · exact absurd h (by simp)

/-- Passes over the rest of a string whose opening mark has been read, and gives what follows
the closing mark. -/
def skip (s : List Char) : Option (List Char) :=
  match s with
  | '"' :: rest => some rest
  | s =>
    match _hnext : skipNext s with
    | some rest => skip rest
    | none => none
termination_by s.length
decreasing_by exact length_lt_of_skipNext _hnext

theorem length_lt_of_skip {s rest : List Char} (h : skip s = some rest) :
    rest.length < s.length := by
  fun_induction skip s with
  | case1 r =>
    obtain rfl := Option.some.inj h
    exact Nat.lt_succ_self _
  | case2 s _ r hnext ih => exact Nat.lt_trans (ih h) (length_lt_of_skipNext hnext)
  | case3 => exact absurd h (by simp)

end TypeExpr.Json.Quoted
