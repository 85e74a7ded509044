import TypeExpr.Text.Lines

/-!
# Decompositions of a text into lines

Which texts are the lines of a text depends on where lines begin and end, and this is said here
without splitting the text: a text is *decomposed* into pieces, each a line and what ends it.

| what ends a line | where |
|---|---|
| a line feed | anywhere |
| a carriage return and a line feed | where there is one, so no line ends with the carriage return |
| nothing | at the end of the text, behind a line that is not empty |

Every text has one decomposition (`Text.isDecomposition_iff`), and the lines of the text are those
of its pieces, numbered from one (`Text.line?_eq_some_iff`). The lemmas for that go by the first
characters of the text, one for each case of the splitting.
-/

namespace TypeExpr.Text

/-! ### Decompositions -/

/-- What ends a line. -/
inductive LineEnd where
  | feed
  | returnFeed
  | missing
  deriving DecidableEq

/-- The characters that end a line. -/
def LineEnd.chars : LineEnd → List Char
  | feed => ['\n']
  | returnFeed => ['\r', '\n']
  | missing => []

/-- A line of a text and what ends it. -/
structure Piece where
  line : List Char
  ending : LineEnd
  deriving DecidableEq

namespace Piece

/-- The characters of a piece. -/
def chars (piece : Piece) : List Char :=
  piece.line ++ piece.ending.chars

/-- **What a piece looks like**: there is no line feed in the line. If the line ends with a line
feed alone, there is no carriage return in front of it, and if nothing ends the line, there is
something on it. -/
structure WellFormed (piece : Piece) : Prop where
  noFeed : '\n' ∉ piece.line
  noReturn : piece.ending = .feed → piece.line.getLast? ≠ some '\r'
  nonempty : piece.ending = .missing → piece.line ≠ []

end Piece

/-- **A text is decomposed into pieces**: they are well-formed, only the last may have no end, and
the text is what they give one after the other. -/
structure IsDecomposition (source : List Char) (pieces : List Piece) : Prop where
  wellFormed : ∀ piece ∈ pieces, piece.WellFormed
  ended : ∀ piece ∈ pieces.dropLast, piece.ending ≠ .missing
  flatten : pieces.flatMap Piece.chars = source

section Cases

variable {c : Char} {source rest : List Char} {piece : Piece} {pieces : List Piece}

theorem isDecomposition_nil : IsDecomposition source [] ↔ source = [] := by
  constructor
  · exact fun h => h.flatten.symm
  · rintro rfl
    exact ⟨fun _ h => absurd h List.not_mem_nil, fun _ h => absurd h List.not_mem_nil, rfl⟩

/-- A decomposition by its first piece. -/
theorem isDecomposition_cons :
    IsDecomposition source (piece :: pieces) ↔
      piece.WellFormed ∧ (piece.ending = .missing → pieces = []) ∧
        ∃ rest, source = piece.chars ++ rest ∧ IsDecomposition rest pieces := by
  have hended : (∀ p ∈ (piece :: pieces).dropLast, p.ending ≠ .missing) ↔
      (piece.ending = .missing → pieces = []) ∧ ∀ p ∈ pieces.dropLast, p.ending ≠ .missing := by
    cases pieces <;> simp
  constructor
  · rintro ⟨hwell, hends, rfl⟩
    obtain ⟨hfirst, hrest⟩ := List.forall_mem_cons.mp hwell
    obtain ⟨hlast, hends⟩ := hended.mp hends
    exact ⟨hfirst, hlast, _, rfl, hrest, hends, rfl⟩
  · rintro ⟨hfirst, hlast, rest, rfl, hwell, hends, rfl⟩
    exact ⟨List.forall_mem_cons.mpr ⟨hfirst, hwell⟩, hended.mpr ⟨hlast, hends⟩, rfl⟩

theorem Piece.WellFormed.chars_ne_nil (h : piece.WellFormed) : piece.chars ≠ [] := by
  intro hnil
  obtain ⟨hline, hending⟩ := List.append_eq_nil_iff.mp hnil
  cases hkind : piece.ending with
  | missing => exact h.nonempty hkind hline
  | feed | returnFeed => simp [hkind, LineEnd.chars] at hending

/-- The empty text has no lines. -/
theorem isDecomposition_nil_iff : IsDecomposition [] pieces ↔ pieces = [] := by
  cases pieces with
  | nil => simp [isDecomposition_nil]
  | cons piece pieces =>
    refine iff_of_false (fun h => ?_) (by simp)
    obtain ⟨hfirst, -, rest, hsource, -⟩ := isDecomposition_cons.mp h
    exact hfirst.chars_ne_nil (List.append_eq_nil_iff.mp hsource.symm).1

/-- A text that is not empty has a first piece. -/
theorem IsDecomposition.exists_cons (h : IsDecomposition (c :: rest) pieces) :
    ∃ line ending more after, pieces = ⟨line, ending⟩ :: more ∧
      (⟨line, ending⟩ : Piece).WellFormed ∧ (ending = .missing → more = []) ∧
        c :: rest = line ++ (ending.chars ++ after) ∧ IsDecomposition after more := by
  rcases pieces with _ | ⟨⟨line, ending⟩, more⟩
  · cases isDecomposition_nil.mp h
  · obtain ⟨hwell, hlast, after, hsource, hmore⟩ := isDecomposition_cons.mp h
    exact ⟨line, ending, more, after, rfl, hwell, hlast,
      hsource.trans (List.append_assoc ..), hmore⟩

/-- A line feed at the front ends an empty line. -/
theorem isDecomposition_feed_iff :
    IsDecomposition ('\n' :: rest) pieces ↔
      ∃ more, pieces = ⟨[], .feed⟩ :: more ∧ IsDecomposition rest more := by
  constructor
  · intro h
    obtain ⟨line, ending, more, after, rfl, hwell, -, hsource, hmore⟩ := h.exists_cons
    rcases line with _ | ⟨d, line⟩
    · cases ending with
      | feed =>
        obtain rfl : rest = after := (List.cons.inj hsource).2
        exact ⟨more, rfl, hmore⟩
      | returnFeed => exact absurd (List.cons.inj hsource).1 (by decide)
      | missing => exact absurd rfl (hwell.nonempty rfl)
    · -- the line feed would be in the line
      obtain rfl : '\n' = d := (List.cons.inj hsource).1
      exact absurd List.mem_cons_self hwell.noFeed
  · rintro ⟨more, rfl, hmore⟩
    exact isDecomposition_cons.mpr ⟨⟨by simp, by simp, by simp⟩, by simp, rest, rfl, hmore⟩

/-- A carriage return and a line feed at the front end an empty line. -/
theorem isDecomposition_returnFeed_iff :
    IsDecomposition ('\r' :: '\n' :: rest) pieces ↔
      ∃ more, pieces = ⟨[], .returnFeed⟩ :: more ∧ IsDecomposition rest more := by
  constructor
  · intro h
    obtain ⟨line, ending, more, after, rfl, hwell, hlast, hsource, hmore⟩ := h.exists_cons
    rcases line with _ | ⟨d, _ | ⟨e, line⟩⟩
    · cases ending with
      | feed => exact absurd (List.cons.inj hsource).1 (by decide)
      | returnFeed =>
        obtain rfl : rest = after := (List.cons.inj (List.cons.inj hsource).2).2
        exact ⟨more, rfl, hmore⟩
      | missing => exact absurd rfl (hwell.nonempty rfl)
    · -- the line would be the carriage return, and the line feed its end
      obtain ⟨rfl, hrest⟩ := List.cons.inj hsource
      cases ending with
      | feed => exact absurd rfl (hwell.noReturn rfl)
      | returnFeed => exact absurd (List.cons.inj hrest).1 (by decide)
      | missing =>
        obtain rfl := hlast rfl
        obtain rfl := isDecomposition_nil.mp hmore
        cases hrest
    · obtain rfl : '\n' = e := (List.cons.inj (List.cons.inj hsource).2).1
      exact absurd (by simp) hwell.noFeed
  · rintro ⟨more, rfl, hmore⟩
    exact isDecomposition_cons.mpr ⟨⟨by simp, by simp, by simp⟩, by simp, rest, rfl, hmore⟩

/-- Puts a character in front of the first line of some pieces. -/
def Piece.consFirst (c : Char) : List Piece → List Piece
  | [] => [⟨[c], .missing⟩]
  | piece :: pieces => ⟨c :: piece.line, piece.ending⟩ :: pieces

section Character

variable (hfeed : c ≠ '\n') (hreturn : ∀ after, c = '\r' → rest ≠ '\n' :: after)

include hfeed hreturn

theorem IsDecomposition.consFirst {more : List Piece} (h : IsDecomposition rest more) :
    IsDecomposition (c :: rest) (Piece.consFirst c more) := by
  rcases more with _ | ⟨⟨line, ending⟩, more⟩
  · obtain rfl := isDecomposition_nil.mp h
    exact isDecomposition_cons.mpr
      ⟨⟨by simpa using hfeed.symm, by simp, by simp⟩, by simp, [], rfl, h⟩
  · obtain ⟨hwell, hlast, after, rfl, hafter⟩ := isDecomposition_cons.mp h
    refine isDecomposition_cons.mpr
      ⟨⟨fun hmem => ?_, fun hkind hreturned => ?_, by simp⟩, hlast, after, rfl, hafter⟩
    · exact (List.mem_cons.mp hmem).elim (fun heq => hfeed heq.symm) hwell.noFeed
    · -- the carriage return is in the line behind the character, or it is the character
      have hkind : ending = .feed := hkind
      subst hkind
      rw [List.getLast?_cons] at hreturned
      cases hline : line.getLast? with
      | none =>
        rw [hline] at hreturned
        obtain rfl := List.getLast?_eq_none_iff.mp hline
        exact hreturn after (Option.some.inj hreturned) rfl
      | some last =>
        rw [hline] at hreturned
        exact hwell.noReturn rfl (hline.trans hreturned)

theorem IsDecomposition.exists_consFirst (h : IsDecomposition (c :: rest) pieces) :
    ∃ more, pieces = Piece.consFirst c more ∧ IsDecomposition rest more := by
  obtain ⟨line, ending, more, after, rfl, hwell, hlast, hsource, hmore⟩ := h.exists_cons
  rcases line with _ | ⟨d, line⟩
  · cases ending with
    | feed => exact absurd (List.cons.inj hsource).1 hfeed
    | returnFeed =>
      obtain ⟨hc, hrest⟩ := List.cons.inj hsource
      exact absurd hrest (hreturn after hc)
    | missing => exact absurd rfl (hwell.nonempty rfl)
  · obtain ⟨rfl, hrest⟩ := List.cons.inj hsource
    by_cases hend : line = [] ∧ ending = .missing
    · -- the character is all that there is
      obtain ⟨rfl, rfl⟩ := hend
      obtain rfl := hlast rfl
      obtain rfl := isDecomposition_nil.mp hmore
      obtain rfl : rest = [] := hrest
      exact ⟨[], rfl, hmore⟩
    · refine ⟨⟨line, ending⟩ :: more, rfl, isDecomposition_cons.mpr
        ⟨⟨fun hmem => ?_, fun hkind hlast => ?_, fun hkind hnil => hend ⟨hnil, hkind⟩⟩, hlast, after,
          hrest.trans (List.append_assoc ..).symm, hmore⟩⟩
      · exact hwell.noFeed (List.mem_cons_of_mem _ hmem)
      · refine hwell.noReturn hkind ?_
        rw [List.getLast?_cons, hlast]
        rfl

/-- **Any other character at the front** is the first of the first line. -/
theorem isDecomposition_char_iff :
    IsDecomposition (c :: rest) pieces ↔
      ∃ more, pieces = Piece.consFirst c more ∧ IsDecomposition rest more := by
  refine ⟨fun h => h.exists_consFirst hfeed hreturn, ?_⟩
  rintro ⟨more, rfl, hmore⟩
  exact hmore.consFirst hfeed hreturn

end Character

end Cases

/-! ### The decomposition of a text -/

/-- The pieces of a text. -/
def decompose : List Char → List Piece
  | [] => []
  | '\n' :: rest => ⟨[], .feed⟩ :: decompose rest
  | '\r' :: '\n' :: rest => ⟨[], .returnFeed⟩ :: decompose rest
  | c :: rest => Piece.consFirst c (decompose rest)

/-- **Every text has one decomposition.** -/
theorem isDecomposition_iff {source : List Char} {pieces : List Piece} :
    IsDecomposition source pieces ↔ pieces = decompose source := by
  induction source using decompose.induct generalizing pieces with
  | case1 => exact isDecomposition_nil_iff
  | case2 rest ih => simp only [isDecomposition_feed_iff, ih, exists_eq_right, decompose]
  | case3 rest ih => simp only [isDecomposition_returnFeed_iff, ih, exists_eq_right, decompose]
  | case4 c rest hfeed hreturn ih =>
    rw [isDecomposition_char_iff hfeed fun after hc hrest => hreturn after hc hrest]
    simp only [ih, exists_eq_right]
    rw [decompose]
    · exact hfeed
    · exact hreturn

/-- Of two carriage returns in front of a line feed the first stays, and so does one at the end. -/
example : decompose ['a', '\r', '\r', '\n', '\n', 'b', '\r'] =
    [⟨['a', '\r'], .returnFeed⟩, ⟨[], .feed⟩, ⟨['b', '\r'], .missing⟩] := by
  rfl

/-- The lines of a text are those of its pieces. -/
theorem splitLines_eq_map (source : List Char) :
    splitLines source = (decompose source).map Piece.line := by
  have hfirst (c : Char) (pieces : List Piece) :
      consFirst c (pieces.map Piece.line) = (Piece.consFirst c pieces).map Piece.line := by
    cases pieces <;> rfl
  induction source using decompose.induct with
  | case1 => rfl
  | case2 rest ih => rw [splitLines, decompose, ih]; rfl
  | case3 rest ih => rw [splitLines, decompose, ih]; rfl
  | case4 c rest hfeed hreturn ih =>
    rw [splitLines, decompose, ih, hfirst]
    all_goals assumption

theorem lines_eq_map (source : String) :
    lines source = (decompose source.toList).map fun piece => String.ofList piece.line := by
  rw [lines, splitLines_eq_map, List.map_map]
  rfl

/-! ### Numbered lines -/

theorem line?_eq_none_iff {texts : List String} {n : Nat} :
    line? texts n = none ↔ n = 0 ∨ texts.length < n := by
  cases n with
  | zero => simp [line?]
  | succ n =>
    simp only [line?, List.getElem?_eq_none_iff, Nat.add_one_ne_zero, false_or, Nat.lt_succ_iff]

theorem line?_of_pos {texts : List String} {n : Nat} (hn : 0 < n) :
    line? texts n = texts[n - 1]? := by
  obtain ⟨n, rfl⟩ := Nat.exists_eq_succ_of_ne_zero (Nat.ne_of_gt hn)
  rfl

/-- **The line of a source with a number**, where the first has number one: it is that of the piece
at this place, as it is in the source. -/
def IsLine (source : String) (n : Nat) (text : String) : Prop :=
  ∃ pieces piece, IsDecomposition source.toList pieces ∧ 0 < n ∧ pieces[n - 1]? = some piece ∧
    text = String.ofList piece.line

/-- **Looking up a number finds the line with this number**, if there is one. -/
theorem line?_eq_some_iff {source text : String} {n : Nat} :
    line? (lines source) n = some text ↔ IsLine source n text := by
  rcases Nat.eq_zero_or_pos n with rfl | hn
  · refine iff_of_false (by simp [line?]) ?_
    rintro ⟨-, -, -, hpos, -⟩
    exact absurd hpos (Nat.lt_irrefl 0)
  · rw [line?_of_pos hn, lines_eq_map, List.getElem?_map, Option.map_eq_some_iff]
    constructor
    · rintro ⟨piece, hpiece, rfl⟩
      exact ⟨_, piece, isDecomposition_iff.mpr rfl, hn, hpiece, rfl⟩
    · rintro ⟨_, piece, hpieces, -, hpiece, rfl⟩
      obtain rfl := isDecomposition_iff.mp hpieces
      exact ⟨piece, hpiece, rfl⟩

end TypeExpr.Text
