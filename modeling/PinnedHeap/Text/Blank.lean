/-!
# White space

The characters with the Unicode property *White_Space*, and the removal of white
space at both ends of a text.
-/

namespace PinnedHeap.Text

/-- The code points of white space, as ranges with both ends. -/
def blankRanges : List (Nat × Nat) :=
  [(0x9, 0xd), (0x20, 0x20), (0x85, 0x85), (0xa0, 0xa0), (0x1680, 0x1680), (0x2000, 0x200a),
    (0x2028, 0x2029), (0x202f, 0x202f), (0x205f, 0x205f), (0x3000, 0x3000)]

/-- Whether a character is white space. -/
def isBlank (c : Char) : Bool := blankRanges.any fun r => r.1 ≤ c.toNat && c.toNat ≤ r.2

/-- A text without white space at its ends. -/
def trim (cs : List Char) : List Char :=
  ((cs.dropWhile isBlank).reverse.dropWhile isBlank).reverse

/-- Twenty-five characters are white space. -/
example : (blankRanges.map fun r => r.2 + 1 - r.1).sum = 25 := by decide

example : trim [' ', '\t', 'a', ' ', 'b', '\n', '\u3000'] = ['a', ' ', 'b'] := by decide

end PinnedHeap.Text
