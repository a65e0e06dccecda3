import Reckoner.Text.Blank

/-!
# White space

The Unicode property `White_Space`: 25 characters in ten ranges of code points. It is wider than the
class of blanks, which is what an expression may contain; white space is what may surround a number
on a line of its own.
-/

set_option autoImplicit false

namespace Reckoner

/-- The ranges of code points with the property `White_Space`, ascending, both ends included. -/
def whiteSpaceRanges : List (Nat × Nat) :=
  [(0x09, 0x0D), (0x20, 0x20), (0x85, 0x85), (0xA0, 0xA0), (0x1680, 0x1680), (0x2000, 0x200A),
   (0x2028, 0x2029), (0x202F, 0x202F), (0x205F, 0x205F), (0x3000, 0x3000)]

/-- The character has the property `White_Space`. -/
def isWhiteSpace (c : Char) : Bool :=
  whiteSpaceRanges.any fun range => range.1 ≤ c.toNat && c.toNat ≤ range.2

/-- The text without the white space at its two ends. -/
def trimWhiteSpace (s : List Char) : List Char :=
  trimWhile isWhiteSpace s

/-- The property has 25 characters. -/
example : (whiteSpaceRanges.map fun range => range.2 + 1 - range.1).sum = 25 := by decide

/-- No-break space is white space and no blank; zero-width space is neither. -/
example : isWhiteSpace '\u00a0' = true ∧ isBlank '\u00a0' = false ∧ isWhiteSpace '\u200b' = false := by
  decide

end Reckoner
