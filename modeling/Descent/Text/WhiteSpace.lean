/-!
# White space

The characters with the Unicode property `White_Space`: the ASCII controls from tab to carriage
return, the spaces of every width, the line and paragraph separators and the ideographic space.
-/

namespace Descent.Text

/-- The code points with the property `White_Space`, as closed ranges. -/
def whiteSpaceRanges : List (Nat × Nat) :=
  [(0x0009, 0x000D), (0x0020, 0x0020), (0x0085, 0x0085), (0x00A0, 0x00A0), (0x1680, 0x1680),
   (0x2000, 0x200A), (0x2028, 0x2029), (0x202F, 0x202F), (0x205F, 0x205F), (0x3000, 0x3000)]

/-- Whether the character has the Unicode property `White_Space`. -/
def isWhiteSpace (c : Char) : Bool :=
  whiteSpaceRanges.any fun range => range.1 ≤ c.toNat && c.toNat ≤ range.2

end Descent.Text
