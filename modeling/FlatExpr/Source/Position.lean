import FlatExpr.Text.Basic

/-!
# Lines and columns

A byte offset is shown to people as a line and a column, both counted from one. Lines end at line
feeds; columns count characters.
-/

namespace FlatExpr

/-- A place in a source. -/
structure SourcePosition where
  /-- The byte offset from the start. -/
  offset : Nat
  /-- The number of the line, counted from one. -/
  line : Nat
  /-- The number of the column, counted from one in characters. -/
  column : Nat
  deriving DecidableEq

namespace SourcePosition

/-- The start of a source. -/
def start : SourcePosition := ⟨0, 1, 1⟩

/-- The characters that start before byte `n`. -/
def passed : Text → Nat → Text
  | [], _ => []
  | c :: cs, n => if n = 0 then [] else c :: passed cs (n - c.utf8Size)

/-- Line and column after one more character. -/
def step (p : SourcePosition) (c : Char) : SourcePosition :=
  if c = '\n' then { p with line := p.line + 1, column := 1 }
  else { p with column := p.column + 1 }

/-- The place at a byte offset, which is taken as the end when it lies beyond. Inside a character it
is the place after that character. -/
def ofOffset (input : Text) (offset : Nat) : SourcePosition :=
  let offset := min offset (Text.byteLength input)
  (passed input offset).foldl step { start with offset := offset }

/-- The place in words. -/
def display (p : SourcePosition) : Text :=
  "line ".toList ++ Text.ofNat p.line ++ ", column ".toList ++ Text.ofNat p.column

end SourcePosition

end FlatExpr
