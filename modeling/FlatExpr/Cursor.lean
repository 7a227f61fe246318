import FlatExpr.Lexeme

/-!
# Cursors

A cursor is a place in a list of lexemes, kept as the lexemes behind it (nearest first) and those
ahead of it. Looking beyond either end gives a terminal instead of failing. The moves that pass
white space pass one lexeme of it at most, which is all there can be in a list that comes from a
source.
-/

namespace FlatExpr

/-- A place in a list of lexemes. -/
structure Cursor where
  /-- The lexemes before the place, the nearest first. -/
  behind : List Lexeme
  /-- The lexemes after the place. -/
  ahead : List Lexeme
  /-- What is seen beyond either end. -/
  terminal : Lexeme
  deriving DecidableEq

namespace Cursor

/-- The start of a list of lexemes. Beyond its ends stands the terminal after its last lexeme. -/
def ofLexemes (lexemes : List Lexeme) : Cursor :=
  { behind := []
    ahead := lexemes
    terminal :=
      match lexemes.getLast? with
      | some last => last.terminalAfter
      | none => Lexeme.ofText ([] : Text) }

/-- The start of the lexemes of a source. -/
def ofSource (source : Text) : Cursor := ofLexemes (Lexeme.all source)

/-- The start of a list of lexemes that are each a whole text, and a source of its own. -/
def ofTexts (texts : List Text) : Cursor :=
  ofLexemes (texts.zipIdx.map fun p => .ofText ⟨p.2, p.1⟩)

/-- The whole list of lexemes. -/
def lexemes (c : Cursor) : List Lexeme := c.behind.reverse ++ c.ahead

/-- The number of lexemes before the place. -/
def position (c : Cursor) : Nat := c.behind.length

/-- The number of lexemes in the list. -/
def size (c : Cursor) : Nat := c.behind.length + c.ahead.length

/-- The place after `n` lexemes, or the end of the list when it has fewer. -/
def seek (c : Cursor) (n : Nat) : Cursor :=
  { c with behind := (c.lexemes.take n).reverse, ahead := c.lexemes.drop n }

/-! ## Forward -/

/-- Whether there is a lexeme ahead. -/
def hasNext (c : Cursor) : Bool := !c.ahead.isEmpty

/-- The next lexeme. -/
def peek (c : Cursor) : Lexeme :=
  match c.ahead with
  | [] => c.terminal
  | l :: _ => l

/-- The place after the next lexeme. -/
def skip (c : Cursor) : Cursor :=
  match c.ahead with
  | [] => c
  | l :: ls => { c with behind := l :: c.behind, ahead := ls }

/-- The place after the next lexeme if that is white space. -/
def skipSpace (c : Cursor) : Cursor := if c.peek.isWhitespace then c.skip else c

/-- The next lexeme, past one lexeme of white space. -/
def peekWord (c : Cursor) : Lexeme := c.skipSpace.peek

/-- The place after the next lexeme, past one lexeme of white space. -/
def skipWord (c : Cursor) : Cursor := c.skipSpace.skip

/-- Whether at most one lexeme of white space is left before a terminal. -/
def atEnd (c : Cursor) : Bool := c.peekWord.isTerminal

/-! ## Backward -/

/-- Whether there is a lexeme behind. -/
def hasPrev (c : Cursor) : Bool := !c.behind.isEmpty

/-- The lexeme behind. -/
def last (c : Cursor) : Lexeme :=
  match c.behind with
  | [] => c.terminal
  | l :: _ => l

/-- The place before the lexeme behind. -/
def back (c : Cursor) : Cursor :=
  match c.behind with
  | [] => c
  | l :: ls => { c with behind := ls, ahead := l :: c.ahead }

/-- The place before the lexeme behind if that is white space. -/
def backSpace (c : Cursor) : Cursor := if c.last.isWhitespace then c.back else c

/-- The lexeme behind, past one lexeme of white space. -/
def lastWord (c : Cursor) : Lexeme := c.backSpace.last

/-! ## Moves keep the lexemes -/

@[simp] theorem lexemes_skip (c : Cursor) : c.skip.lexemes = c.lexemes := by
  unfold skip
  split
  · rfl
  · next h => simp [lexemes, h]

@[simp] theorem lexemes_skipSpace (c : Cursor) : c.skipSpace.lexemes = c.lexemes := by
  unfold skipSpace
  split <;> simp

@[simp] theorem lexemes_skipWord (c : Cursor) : c.skipWord.lexemes = c.lexemes := by
  simp [skipWord]

@[simp] theorem lexemes_back (c : Cursor) : c.back.lexemes = c.lexemes := by
  unfold back
  split
  · rfl
  · next h => simp [lexemes, h]

@[simp] theorem lexemes_backSpace (c : Cursor) : c.backSpace.lexemes = c.lexemes := by
  unfold backSpace
  split <;> simp

@[simp] theorem lexemes_seek (c : Cursor) (n : Nat) : (c.seek n).lexemes = c.lexemes := by
  simp [seek, lexemes]

end Cursor

end FlatExpr
