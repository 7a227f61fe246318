import FlatExpr.Text.Basic

/-!
# Source snippets

A snippet shows the line that holds an offset, the lines around it, and a caret under the offset.
The lines of a source are those between its line feeds, so there is always at least one, and an
offset that is a line feed belongs to the line which that line feed ends.
-/

namespace FlatExpr.Snippet

/-- A line of a source. -/
structure Line where
  /-- The byte offset of its first character. -/
  start : Nat
  /-- The line without its line feed. -/
  text : Text
  deriving DecidableEq

namespace Line

/-- The byte offset just after the line, where its line feed or the end of the source stands. -/
def stop (l : Line) : Nat := l.start + Text.byteLength l.text

/-- Whether a byte offset belongs to the line. -/
def holds (offset : Nat) (l : Line) : Bool := l.start ≤ offset && offset ≤ l.stop

end Line

/-- The texts between the line feeds. -/
def pieces : Text → List Text
  | [] => [[]]
  | c :: cs =>
    if c = '\n' then [] :: pieces cs
    else
      match pieces cs with
      | [] => [[c]]
      | l :: ls => (c :: l) :: ls

/-- Consecutive lines, the first of which starts at byte `start`. -/
def place (start : Nat) : List Text → List Line
  | [] => []
  | t :: ts => ⟨start, t⟩ :: place (start + Text.byteLength t + 1) ts

/-- The lines of a source. -/
def lines (input : Text) : List Line := place 0 (pieces input)

/-- A number with blanks before it, so that it takes four columns at least. -/
def padded (n : Nat) : Text :=
  let digits := Text.ofNat n
  List.replicate (4 - digits.length) ' ' ++ digits

/-- The row of a line. -/
def row (number : Nat) (l : Line) : Text :=
  padded number ++ " | ".toList ++ l.text ++ "\n".toList

/-- The row with a caret after `column` blanks. -/
def caret (column : Nat) : Text :=
  "     | ".toList ++ List.replicate column ' ' ++ "^\n".toList

/-- The rows of some lines, of which the first has index `index`; the line with index `current` has
a caret row below it. -/
def rows (current column index : Nat) : List Line → Text
  | [] => []
  | l :: ls =>
    row (index + 1) l ++ (if index = current then caret column else [])
      ++ rows current column (index + 1) ls

/-- The snippet around a byte offset, which is taken as the end of the source when it lies beyond,
with `context` lines on either side; `none` when the offset lies inside a character. -/
def render? (input : Text) (offset context : Nat) : Option Text := do
  let offset := min offset (Text.byteLength input)
  let all := lines input
  let current := all.findIdx (Line.holds offset)
  let line ← all[current]?
  let (before, _) ← Text.splitAt? line.text (offset - line.start)
  let first := current - context
  let last := min (current + context + 1) all.length
  return rows current before.length first ((all.take last).drop first)

end FlatExpr.Snippet
