import FlatExpr.Text.Ranges

/-!
# White space

The characters with the Unicode property `White_Space`, ASCII included: a run of them is one
lexeme and may separate the terms of a sequence.
-/

namespace FlatExpr.Text

/-- The code points of `White_Space`, as ascending inclusive ranges. -/
def whiteRanges : List (Nat × Nat) :=
  [(0x9, 0xD), (0x20, 0x20), (0x85, 0x85), (0xA0, 0xA0), (0x1680, 0x1680), (0x2000, 0x200A),
   (0x2028, 0x2029), (0x202F, 0x202F), (0x205F, 0x205F), (0x3000, 0x3000)]

/-- Whether a character is white space. -/
def isWhite (c : Char) : Bool := inRanges whiteRanges c

end FlatExpr.Text
