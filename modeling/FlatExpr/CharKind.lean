import FlatExpr.Text.Alphabetic
import FlatExpr.Text.Numeral
import FlatExpr.Text.White

/-!
# Character kinds and the boundary rule

Every character has exactly one kind. ASCII characters have theirs by a fixed assignment, the
others by their Unicode properties. The kinds of two neighbouring characters alone decide whether a
new lexeme starts between them (`CharKind.startsAfter`).
-/

namespace FlatExpr

/-- What a character contributes to the lexeme it stands in. -/
inductive CharKind where
  /-- White space. -/
  | whitespace
  /-- A numeral. -/
  | digit
  /-- An alphabetic character. -/
  | letter
  /-- One of the symbols `$` and `_`, which behave like letters. -/
  | id
  /-- A punctuation character that operators are formed of. -/
  | punctuation
  /-- A round, square or curly bracket. -/
  | brackets
  /-- A quotation mark. -/
  | quote
  /-- Anything else. -/
  | other
  deriving DecidableEq

namespace CharKind

/-- The white space of ASCII. -/
def blankSymbols : List Char := " \t\n\r\x0b\x0c".toList

/-- The symbols that behave like letters. -/
def idSymbols : List Char := "$_".toList

/-- The bracket characters, each of which is a lexeme of its own. -/
def bracketSymbols : List Char := "()[]\x7b\x7d".toList

/-- The quotation marks, each of which is a lexeme of its own. -/
def quoteSymbols : List Char := "\x60\x27\"".toList

/-- The punctuation that operators are formed of. -/
def punctuationSymbols : List Char := "~!@#%^&*-=+:;\\/|<>.,?".toList

/-- The kind of an ASCII character. -/
def ofAscii (c : Char) : CharKind :=
  if blankSymbols.contains c then .whitespace
  else if c.isDigit then .digit
  else if c.isAlpha then .letter
  else if idSymbols.contains c then .id
  else if bracketSymbols.contains c then .brackets
  else if quoteSymbols.contains c then .quote
  else if punctuationSymbols.contains c then .punctuation
  else .other

/-- The kind of the ASCII character in the low seven bits of a byte. -/
def ofByte (b : Nat) : CharKind := ofAscii (Char.ofNat (b % 128))

/-- The kind of a character. Beyond ASCII a numeral that is also alphabetic counts as a digit. -/
def of (c : Char) : CharKind :=
  if c.toNat < 128 then ofAscii c
  else if Text.isWhite c then .whitespace
  else if Text.isNumeral c then .digit
  else if Text.isAlphabetic c then .letter
  else .other

/-- Whether a character of kind `this` starts a new lexeme after one of kind `before`: blanks and
punctuation form runs, word characters form runs together, and all others stand alone. -/
def startsAfter (this before : CharKind) : Bool :=
  match this with
  | .whitespace | .punctuation => before != this
  | .digit | .letter | .id =>
    match before with
    | .digit | .letter | .id => false
    | _ => true
  | .brackets | .quote | .other => true

end CharKind

end FlatExpr
