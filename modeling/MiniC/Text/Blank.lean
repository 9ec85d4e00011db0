/-!
# Blank characters

Two sets.  Text that is read as a number is trimmed of the characters with the Unicode property
`White_Space`; input is cut into words at the ASCII blanks alone.
-/

namespace MiniC.Text

/-- The code points with the property `White_Space`, as inclusive ranges. -/
def whiteSpaceRanges : List (Nat × Nat) :=
  [(0x0009, 0x000D), (0x0020, 0x0020), (0x0085, 0x0085), (0x00A0, 0x00A0), (0x1680, 0x1680),
   (0x2000, 0x200A), (0x2028, 0x2029), (0x202F, 0x202F), (0x205F, 0x205F), (0x3000, 0x3000)]

/-- Whether a character has the property `White_Space`. -/
def isWhiteSpace (c : Char) : Bool :=
  whiteSpaceRanges.any fun (first, last) => first ≤ c.toNat && c.toNat ≤ last

/-- A text without the white space at its two ends. -/
def trim (cs : List Char) : List Char :=
  ((cs.dropWhile isWhiteSpace).reverse.dropWhile isWhiteSpace).reverse

/-- The bytes that separate words of input: space, tab, line feed, form feed, carriage return. -/
def isBlankByte (b : UInt8) : Bool :=
  b = 0x20 || b = 0x09 || b = 0x0A || b = 0x0C || b = 0x0D

/-- The byte that ends a line of input. -/
def lineFeed : UInt8 := 0x0A

/-- The byte that is dropped in front of a line feed. -/
def carriageReturn : UInt8 := 0x0D

end MiniC.Text
