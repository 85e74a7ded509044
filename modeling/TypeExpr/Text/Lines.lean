/-!
# Lines of a text

A line ends with a line feed, or with a carriage return and a line feed. The end of the text
ends a line as well, unless there is nothing on it. A carriage return anywhere else is a
character like any other, and of several in front of a line feed only the last belongs to
the end of the line.
-/

namespace TypeExpr.Text

/-- Puts a character in front of the first of some pieces of text. -/
def consFirst (c : Char) : List (List Char) → List (List Char)
  | [] => [[c]]
  | piece :: pieces => (c :: piece) :: pieces

/-- The lines of a text, without their ends. -/
def splitLines : List Char → List (List Char)
  | [] => []
  | '\n' :: rest => [] :: splitLines rest
  | '\r' :: '\n' :: rest => [] :: splitLines rest
  | c :: rest => consFirst c (splitLines rest)

/-- The lines of a text, without their ends. -/
def lines (source : String) : List String :=
  (splitLines source.toList).map String.ofList

/-- The line with this number, where the first has number one. -/
def line? (lines : List String) : Nat → Option String
  | 0 => none
  | n + 1 => lines[n]?

end TypeExpr.Text
