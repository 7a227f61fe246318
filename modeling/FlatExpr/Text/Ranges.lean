/-!
# Character properties as ranges

A property of characters is given by the ranges of code points that have it. The tables of the
properties that the lexemes depend on are in the modules beside this one.
-/

namespace FlatExpr.Text

/-- Whether the code point of `c` lies in one of the inclusive `ranges`. -/
def inRanges (ranges : List (Nat × Nat)) (c : Char) : Bool :=
  ranges.any fun r => r.1 ≤ c.toNat && c.toNat ≤ r.2

end FlatExpr.Text
