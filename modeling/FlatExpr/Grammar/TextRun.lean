import FlatExpr.Stretch

/-!
# Runs of text

A run gathers the texts of consecutive lexemes. As long as each lexeme directly follows the one
before it, the run is a single stretch of the source; otherwise the texts are kept one by one.
Either way its text is that of the lexemes in order (`TextRun.text_push`).
-/

namespace FlatExpr

/-- The text of some lexemes that were read one after the other. -/
inductive TextRun where
  /-- No lexeme yet. -/
  | empty
  /-- Lexemes that make up one stretch. -/
  | stretch (stretch : Stretch)
  /-- The texts of lexemes from several places, the last one first. -/
  | pieces (texts : List Text)

namespace TextRun

/-- The run with one more lexeme. -/
def push (run : TextRun) (l : Lexeme) : TextRun :=
  match run with
  | .empty => .stretch (.ofLexeme l)
  | .stretch s =>
    match s.extend? l with
    | some extended => .stretch extended
    | none => .pieces [l.text, s.text]
  | .pieces texts => .pieces (l.text :: texts)

/-- The text that was gathered. -/
def text : TextRun → Text
  | .empty => []
  | .stretch s => s.text
  | .pieces texts => texts.reverse.flatten

/-- One more lexeme adds its text, whether or not the run is still one stretch. -/
@[simp] theorem text_push (run : TextRun) (l : Lexeme) :
    (run.push l).text = run.text ++ l.text := by
  cases run with
  | empty => exact Stretch.text_ofLexeme l
  | pieces texts => simp [push, text]
  | stretch s =>
    simp only [push]
    split
    · next extended h => exact Stretch.text_of_extend? h
    · simp [text]

end TextRun

end FlatExpr
