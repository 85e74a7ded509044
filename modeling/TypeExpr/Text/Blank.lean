/-!
# White space

The characters that Unicode counts as white space, and a text without those at its ends.
-/

namespace TypeExpr.Text

/-- The ranges of the characters with the property `White_Space`. -/
def whiteSpace : List (Nat × Nat) :=
  [(0x0009, 0x000D), (0x0020, 0x0020), (0x0085, 0x0085), (0x00A0, 0x00A0), (0x1680, 0x1680),
    (0x2000, 0x200A), (0x2028, 0x2029), (0x202F, 0x202F), (0x205F, 0x205F), (0x3000, 0x3000)]

/-- Whether a character is white space. -/
def isBlank (c : Char) : Bool :=
  whiteSpace.any fun (first, last) => first ≤ c.toNat && c.toNat ≤ last

/-- A text without the white space at its front. -/
def trimFront (cs : List Char) : List Char :=
  cs.dropWhile isBlank

/-- A text without the white space at its ends. -/
def trim (source : String) : String :=
  String.ofList (trimFront (trimFront source.toList).reverse).reverse

end TypeExpr.Text
