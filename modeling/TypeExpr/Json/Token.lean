import TypeExpr.Json.Numeral
import TypeExpr.Json.Quoted

/-!
# Tokens of JSON text

A JSON text is a row of tokens with blanks between them. Only four characters are blanks,
and only a numeral can swallow what follows it, so most tokens may stand side by side.

A text that is no JSON still has tokens, up to the place where none can be told from what
follows. There the row ends with `junk`, which fits nowhere. Everything that is wrong *below*
the structure of a text is therefore settled here: a word that is no literal, a raw control
character in a string, a numeral with a leading zero.

Two tokens have the shape of a value and yet have none: a string with half of a surrogate pair
in it, and a numeral that is out of range. Who wants their value finds that there is none. Who
passes over them does not look, so the row goes on behind them.
-/

namespace TypeExpr.Json

/-- The smallest parts of a JSON text. -/
inductive Token where
  | null
  | bool (value : Bool)
  | numeral (value : Numeral)
  | text (value : String)
  | openArray
  | closeArray
  | openObject
  | closeObject
  | comma
  | colon
  /-- A string that has no value, since half of a surrogate pair is escaped in it. -/
  | unpaired
  /-- A numeral that has no value, since it is out of range. -/
  | outOfRange
  /-- What cannot be read as any token. -/
  | junk
  deriving DecidableEq

namespace Token

/-- The characters that may stand between tokens. -/
def isBlank (c : Char) : Bool :=
  c = ' ' || c = '\t' || c = '\n' || c = '\r'

/-- The text of a token. -/
def write : Token → List Char
  | null => ['n', 'u', 'l', 'l']
  | bool true => ['t', 'r', 'u', 'e']
  | bool false => ['f', 'a', 'l', 's', 'e']
  | numeral n => n.write
  | text s => Quoted.write s.toList
  | openArray => ['[']
  | closeArray => [']']
  | openObject => ['{']
  | closeObject => ['}']
  | comma => [',']
  | colon => [':']
  | unpaired | outOfRange | junk => []

/-- The token at the front of a text that does not begin with a blank. -/
def scan : List Char → Option (Token × List Char)
  | '[' :: rest => some (openArray, rest)
  | ']' :: rest => some (closeArray, rest)
  | '{' :: rest => some (openObject, rest)
  | '}' :: rest => some (closeObject, rest)
  | ',' :: rest => some (comma, rest)
  | ':' :: rest => some (colon, rest)
  | 'n' :: 'u' :: 'l' :: 'l' :: rest => some (null, rest)
  | 't' :: 'r' :: 'u' :: 'e' :: rest => some (bool true, rest)
  | 'f' :: 'a' :: 'l' :: 's' :: 'e' :: rest => some (bool false, rest)
  | '"' :: rest =>
    match Quoted.scan rest with
    | some (cs, rest) => some (text (String.ofList cs), rest)
    | none => (Quoted.skip rest).map fun rest => (unpaired, rest)
  | s => (Numeral.scan s).map fun (n, rest) => (if n.inRange then numeral n else outOfRange, rest)

/-- Reading a token leaves less to read. -/
theorem length_lt_of_scan {s rest : List Char} {t : Token} (h : scan s = some (t, rest)) :
    rest.length < s.length := by
  unfold scan at h
  split at h
  case h_10 =>
    split at h
    · rename_i hscan
      obtain ⟨-, rfl⟩ := Prod.mk.inj (Option.some.inj h)
      exact Nat.lt_succ_of_lt (Quoted.length_lt_of_scan hscan)
    · simp only [Option.map_eq_some_iff, Prod.mk.injEq] at h
      obtain ⟨after, hskip, -, rfl⟩ := h
      exact Nat.lt_succ_of_lt (Quoted.length_lt_of_skip hskip)
  case h_11 =>
    simp only [Option.map_eq_some_iff, Prod.exists, Prod.mk.injEq] at h
    obtain ⟨n, after, hscan, -, rfl⟩ := h
    exact Numeral.length_lt_of_scan hscan
  all_goals
    simp only [Option.some.injEq, Prod.mk.injEq] at h
    obtain ⟨-, rfl⟩ := h
    simp only [List.length_cons]
    omega

/-- The tokens of a text, as far as there are any. -/
def lex (s : List Char) : List Token :=
  match s with
  | [] => []
  | c :: rest =>
    if isBlank c then lex rest
    else
      match _hscan : scan (c :: rest) with
      | some (t, rest) => t :: lex rest
      | none => [junk]
termination_by s.length
decreasing_by
  · exact Nat.lt_succ_self _
  · exact length_lt_of_scan _hscan

/-! The cases of `lex`, one by one. -/

@[simp]
theorem lex_nil : lex [] = [] := by
  rw [lex]

theorem lex_blank {c : Char} (hc : isBlank c = true) (rest : List Char) :
    lex (c :: rest) = lex rest := by
  rw [lex, if_pos hc]

theorem lex_of_scan {c : Char} {rest after : List Char} {t : Token} (hc : isBlank c = false)
    (h : scan (c :: rest) = some (t, after)) : lex (c :: rest) = t :: lex after := by
  rw [lex, if_neg (by simp [hc])]
  split
  · rename_i hscan
    obtain ⟨rfl, rfl⟩ : t = _ ∧ after = _ := by simpa [h] using hscan
    rfl
  · rename_i hscan
    exact absurd (h.symm.trans hscan) (by simp)

theorem lex_of_scan_eq_none {c : Char} {rest : List Char} (hc : isBlank c = false)
    (h : scan (c :: rest) = none) : lex (c :: rest) = [junk] := by
  rw [lex, if_neg (by simp [hc])]
  split
  · rename_i hscan
    exact absurd (h.symm.trans hscan) (by simp)
  · rfl

end Token

end TypeExpr.Json
