/-!
# Numerals

A JSON number is written as a sign, whole digits without a leading zero, a fraction and
an exponent. A numeral keeps these parts as they are written, since two numerals of one
value need not be exchangeable: where a count is asked for, only plain digits will do, and
`1.0`, `1e0` or `-0` are refused.

A numeral also has to be within the range of double precision. The one that is too large
is no number to the reader at all, so the check belongs to reading. It is made on what a reader
with a significand of 64 bits sees: the leading digits that fit, the rest counted in the
exponent. Only then comes the rounding, of the significand and of the power of ten each
to 53 bits, and of their product. All of it is exact arithmetic on natural numbers.

The double that comes out is not always the one nearest to the numeral, and right at the end of the
range this shows. The reader refuses 17976931348623158e292, which is nearest to the greatest double,
and takes 179769313486231581e291, which no double is near enough to.
-/

namespace TypeExpr.Json

/-- A number as it is written. -/
structure Numeral where
  /-- A minus sign stands in front. -/
  negative : Bool
  /-- The whole digits. They have no leading zero, so their value says what they are. -/
  whole : Nat
  /-- The digits after the point, none if there is no point. -/
  fraction : List (Fin 10)
  /-- The exponent, if there is one. -/
  exponent : Option Int
  deriving DecidableEq

namespace Numeral

/-- A natural number, written in plain digits. -/
def ofNat (n : Nat) : Numeral := ⟨false, n, [], none⟩

/-- The natural number that a numeral in plain digits writes. -/
def natural? (n : Numeral) : Option Nat :=
  if n.negative = false ∧ n.fraction = [] ∧ n.exponent = none then some n.whole else none

@[simp]
theorem natural?_ofNat (n : Nat) : (ofNat n).natural? = some n := rfl

/-! ### Writing -/

/-- An integer in digits, with a minus sign if it is negative. -/
def writeInt : Int → List Char
  | .ofNat n => Nat.toDigits 10 n
  | .negSucc n => '-' :: Nat.toDigits 10 (n + 1)

/-- The digits behind the point, and the point, if there are any. -/
def writeFraction : List (Fin 10) → List Char
  | [] => []
  | d :: ds => '.' :: (d :: ds).map fun d => d.val.digitChar

/-- The exponent with its mark, if there is one. -/
def writeExponent : Option Int → List Char
  | none => []
  | some e => 'e' :: writeInt e

/-- The text of a numeral. -/
def write (n : Numeral) : List Char :=
  (if n.negative then ['-'] else []) ++ Nat.toDigits 10 n.whole ++ writeFraction n.fraction ++
    writeExponent n.exponent

@[simp]
theorem write_ofNat (n : Nat) : (ofNat n).write = Nat.toDigits 10 n := by
  simp [write, ofNat, writeFraction, writeExponent]

/-! ### Reading

Each part is read off the front of the text and hands on what follows it. -/

/-- The sign at the front. -/
def scanSign : List Char → Bool × List Char
  | '-' :: rest => (true, rest)
  | rest => (false, rest)

/-- The value of the digits at the front. At least one is needed. -/
def scanDigits (s : List Char) : Option (Nat × List Char) :=
  match s.takeWhile Char.isDigit with
  | [] => none
  | digits => some (Nat.ofDigitChars 10 digits 0, s.dropWhile Char.isDigit)

/-- The whole digits at the front. A zero stands alone. -/
def scanWhole (s : List Char) : Option (Nat × List Char) :=
  match s.takeWhile Char.isDigit with
  | '0' :: _ :: _ => none
  | _ => scanDigits s

/-- The fraction at the front, if there is a point. -/
def scanFraction : List Char → Option (List (Fin 10) × List Char)
  | '.' :: rest =>
    match rest.takeWhile Char.isDigit with
    | [] => none
    | digits => some (digits.map fun d => Fin.ofNat 10 (d.toNat - '0'.toNat),
        rest.dropWhile Char.isDigit)
  | rest => some ([], rest)

/-- The sign of an exponent, where a plus sign may stand as well. -/
def scanExponentSign : List Char → Bool × List Char
  | '+' :: rest => (false, rest)
  | rest => scanSign rest

/-- The exponent at the front, if it is announced. -/
def scanExponent (s : List Char) : Option (Option Int × List Char) :=
  match s with
  | 'e' :: rest | 'E' :: rest =>
    let (negative, rest) := scanExponentSign rest
    (scanDigits rest).map fun (n, rest) => (some (if negative then -n else n), rest)
  | rest => some (none, rest)

/-- The numeral at the front of a text, and what follows it. -/
def scan (s : List Char) : Option (Numeral × List Char) :=
  let (negative, s) := scanSign s
  match scanWhole s with
  | none => none
  | some (whole, s) =>
    match scanFraction s with
    | none => none
    | some (fraction, s) =>
      (scanExponent s).map fun (exponent, s) => (⟨negative, whole, fraction, exponent⟩, s)

theorem length_scanSign_le (s : List Char) : (scanSign s).2.length ≤ s.length := by
  unfold scanSign
  split <;> simp

theorem length_scanExponentSign_le (s : List Char) :
    (scanExponentSign s).2.length ≤ s.length := by
  unfold scanExponentSign
  split
  · simp
  · exact length_scanSign_le _

theorem length_lt_of_scanDigits {s rest : List Char} {n : Nat}
    (h : scanDigits s = some (n, rest)) : rest.length < s.length := by
  unfold scanDigits at h
  split at h
  · exact absurd h (by simp)
  · rename_i hne
    simp only [Option.some.injEq, Prod.mk.injEq] at h
    obtain ⟨-, rfl⟩ := h
    have hsplit :=
      congrArg List.length (List.takeWhile_append_dropWhile : _ ++ s.dropWhile Char.isDigit = s)
    have hpos := List.length_pos_iff.mpr hne
    rw [List.length_append] at hsplit
    omega

theorem length_lt_of_scanWhole {s rest : List Char} {n : Nat}
    (h : scanWhole s = some (n, rest)) : rest.length < s.length := by
  unfold scanWhole at h
  split at h
  · exact absurd h (by simp)
  · exact length_lt_of_scanDigits h

theorem length_le_of_scanFraction {s rest : List Char} {ds : List (Fin 10)}
    (h : scanFraction s = some (ds, rest)) : rest.length ≤ s.length := by
  unfold scanFraction at h
  split at h
  · split at h
    · exact absurd h (by simp)
    · simp only [Option.some.injEq, Prod.mk.injEq] at h
      obtain ⟨-, rfl⟩ := h
      exact Nat.le_succ_of_le (List.dropWhile_suffix _).length_le
  · simp only [Option.some.injEq, Prod.mk.injEq] at h
    exact h.2 ▸ Nat.le_refl _

theorem length_le_of_scanExponent {s rest : List Char} {e : Option Int}
    (h : scanExponent s = some (e, rest)) : rest.length ≤ s.length := by
  unfold scanExponent at h
  split at h
  case h_3 =>
    simp only [Option.some.injEq, Prod.mk.injEq] at h
    exact h.2 ▸ Nat.le_refl _
  all_goals
    rename_i r
    simp only [Option.map_eq_some_iff, Prod.exists, Prod.mk.injEq] at h
    obtain ⟨n, after, hdigits, -, rfl⟩ := h
    have hlt := length_lt_of_scanDigits hdigits
    have hle := length_scanExponentSign_le r
    simp only [List.length_cons]
    omega

/-- Reading a numeral leaves less to read. -/
theorem length_lt_of_scan {s rest : List Char} {n : Numeral} (h : scan s = some (n, rest)) :
    rest.length < s.length := by
  have hsign := length_scanSign_le s
  simp only [scan] at h
  split at h
  · exact absurd h (by simp)
  · rename_i hwhole
    split at h
    · exact absurd h (by simp)
    · rename_i hfraction
      simp only [Option.map_eq_some_iff, Prod.exists, Prod.mk.injEq] at h
      obtain ⟨e, after, hexponent, -, rfl⟩ := h
      have h₁ := length_lt_of_scanWhole hwhole
      have h₂ := length_le_of_scanFraction hfraction
      have h₃ := length_le_of_scanExponent hexponent
      omega

/-! ### Range -/

/-- A significand is kept in 64 bits. -/
def significandLimit : Nat := Nat.pow 2 64

/-- A number rounded to so many significant binary digits, a half going to the even
neighbour. -/
def roundBits (bits n : Nat) : Nat :=
  let unit := Nat.pow 2 (n.log2 + 1 - bits)
  let (quotient, half) := (n / unit, 2 * (n % unit))
  if unit < half ∨ half = unit ∧ quotient % 2 = 1 then (quotient + 1) * unit
  else quotient * unit

/-- The leading digits of a number that fit into 64 bits, and how many are left out. -/
def leading (n : Nat) : Nat × Nat :=
  if n < significandLimit then (n, 0)
  else
    let (kept, left) := leading (n / 10)
    (kept, left + 1)
termination_by n
decreasing_by
  have hpos : 0 < significandLimit := by decide
  omega

/-- Appends digits to a significand as long as it fits into 64 bits. -/
def extend (n : Nat) : List (Fin 10) → Nat × Nat
  | [] => (n, 0)
  | d :: ds =>
    if n * 10 + d < significandLimit then
      let (kept, added) := extend (n * 10 + d) ds
      (kept, added + 1)
    else (n, 0)

/-- The significand of 64 bits and the power of ten that a reader sees. -/
def scaled (n : Numeral) : Nat × Int :=
  let (kept, left) := leading n.whole
  let (significand, added) := extend kept n.fraction
  (significand, left - added + n.exponent.getD 0)

/-- The least number that rounds to infinity in double precision. -/
def infinity : Nat := Nat.pow 2 1024 - Nat.pow 2 970

/-- **A numeral is in range** if what the reader makes of it in double precision is finite: the
product of the two rounded factors, rounded again. Nothing is too small: a negative power of ten
at most rounds to zero. -/
def inRange (n : Numeral) : Bool :=
  let (significand, power) := n.scaled
  significand = 0 || power < 0 ||
    (power ≤ 308 && roundBits 53 significand * roundBits 53 (Nat.pow 10 power.toNat) < infinity)

end Numeral

end TypeExpr.Json
