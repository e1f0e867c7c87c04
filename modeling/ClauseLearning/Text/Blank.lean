/-!
# Blanks

A character is blank if it has the Unicode property `White_Space`. The `words` of a text are its longest parts without
blanks.
-/

namespace ClauseLearning

namespace Text

/-- The code points of blanks, as ranges with both ends. -/
def blankRanges : List (Nat × Nat) :=
  [(0x9, 0xD), (0x20, 0x20), (0x85, 0x85), (0xA0, 0xA0), (0x1680, 0x1680), (0x2000, 0x200A), (0x2028, 0x2029),
    (0x202F, 0x202F), (0x205F, 0x205F), (0x3000, 0x3000)]

/-- Whether a character is blank. -/
def isBlank (c : Char) : Bool := blankRanges.any fun (first, last) => first ≤ c.toNat && c.toNat ≤ last

/-- The words of a text, in order. -/
def words (text : List Char) : List (List Char) := (text.splitOnP isBlank).filter (! ·.isEmpty)

end Text

end ClauseLearning
