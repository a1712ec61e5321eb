/-!
# The White_Space property

The characters that Unicode gives the property White_Space, as ranges of code points. A line break,
a tabulator and a no-break space are among them; a zero-width space is not.
-/

namespace CanonicalHuffman

namespace Text

/-- The first and the last code point of each range. -/
def whiteSpaceRanges : List (Nat × Nat) :=
  [(0x9, 0xD), (0x20, 0x20), (0x85, 0x85), (0xA0, 0xA0), (0x1680, 0x1680), (0x2000, 0x200A),
    (0x2028, 0x2029), (0x202F, 0x202F), (0x205F, 0x205F), (0x3000, 0x3000)]

/-- Whether a character has the property White_Space. -/
def isWhiteSpace (char : Char) : Bool :=
  whiteSpaceRanges.any fun range => range.1 ≤ char.toNat ∧ char.toNat ≤ range.2

/-- The ranges hold twenty-five code points. -/
example : (whiteSpaceRanges.map fun range => range.2 + 1 - range.1).sum = 25 := by decide

/-- The ranges are in order and apart from each other. -/
example : whiteSpaceRanges.Pairwise fun left right => left.2 + 1 < right.1 := by decide

end Text

end CanonicalHuffman
