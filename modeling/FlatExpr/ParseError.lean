import FlatExpr.Vocabulary.Delimiter

/-!
# Parse errors

A failed reading says what was found, where, and what the grammar or the dialect wanted there. The
causes are the constructors of `ParseError`; their wording is in `ParseError.message` alone.
-/

namespace FlatExpr

/-- What can be called for at a point of the source. -/
inductive Expected where
  /-- An identifier, numeric, literal, bracketed expression or prefixed term. -/
  | term
  /-- An identifier. -/
  | identifier
  /-- A numeric. -/
  | numeric
  /-- A prefix operator. -/
  | prefixOp
  /-- An infix operator. -/
  | infixOp
  /-- A postfix operator. -/
  | postfixOp
  /-- A quotation mark that opens a literal. -/
  | quote
  /-- An opening bracket. -/
  | openBracket
  /-- A closing bracket. -/
  | closeBracket
  /-- A separator of a sequence. -/
  | separator
  /-- The end of the source. -/
  | terminal
  deriving DecidableEq

namespace Expected

/-- The stored name. -/
def name : Expected → Text
  | .term => "term".toList
  | .identifier => "identifier".toList
  | .numeric => "numeric".toList
  | .prefixOp => "prefix_op".toList
  | .infixOp => "infix_op".toList
  | .postfixOp => "postfix_op".toList
  | .quote => "quote".toList
  | .openBracket => "open_bracket".toList
  | .closeBracket => "close_bracket".toList
  | .separator => "separator".toList
  | .terminal => "terminal".toList

/-- The words for it in a message. -/
def display : Expected → Text
  | .term => "term".toList
  | .identifier => "identifier".toList
  | .numeric => "numeric".toList
  | .prefixOp => "prefix operator".toList
  | .infixOp => "infix operator".toList
  | .postfixOp => "postfix operator".toList
  | .quote => "quote".toList
  | .openBracket => "opening bracket".toList
  | .closeBracket => "closing bracket".toList
  | .separator => "sequence separator".toList
  | .terminal => "end of input".toList

instance : Named Expected :=
  .ofMembers [.term, .identifier, .numeric, .prefixOp, .infixOp, .postfixOp, .quote, .openBracket,
    .closeBracket, .separator, .terminal] name (by intro a; cases a <;> rfl)

end Expected

/-- The broad class of a parse error. -/
inductive ErrorKind where
  /-- A lexeme belongs to a category that the dialect disables. -/
  | lexical
  /-- The lexemes do not fit the grammar. -/
  | structural
  /-- The reading was complete before the end of the source. -/
  | trailingInput
  /-- The nesting limit was hit. -/
  | limit
  deriving DecidableEq

/-- Why a source could not be read. Offsets are byte offsets in the source. -/
inductive ParseError where
  /-- A lexeme of a category that the dialect disables. -/
  | disallowed (category : Expected) (lexeme : Text) (offset : Nat)
  /-- A lexeme that does not fit the grammar; it is empty at the end of the source. -/
  | unexpected (expected : Expected) (found : Text) (offset : Nat)
  /-- A closing bracket where a term should start. -/
  | unexpectedClosing (bracket : Bracket) (offset : Nat)
  /-- A pair of brackets of different kinds; the offset is that of the closing one. -/
  | bracketMismatch (opened closed : Bracket) (offset : Nat)
  /-- A literal without its closing quotation mark; the offset is that of the opening one. -/
  | unterminatedLiteral (quote : Quote) (offset : Nat)
  /-- A sequence that mixes separators. -/
  | separatorMismatch (expected found : Separator) (offset : Nat)
  /-- Source that is left over after a complete reading. -/
  | unresolved (remainder : Text) (offset : Nat)
  /-- Nesting beyond the limit. -/
  | tooDeep (depth maxDepth : Nat)
  deriving DecidableEq

namespace ParseError

/-- The broad class of the error. -/
def kind : ParseError → ErrorKind
  | .disallowed .. => .lexical
  | .unresolved .. => .trailingInput
  | .tooDeep .. => .limit
  | _ => .structural

/-- The text of the offending lexeme. -/
def lexeme : ParseError → Text
  | .disallowed _ lexeme _ => lexeme
  | .unexpected _ found _ => found
  | .unexpectedClosing bracket _ => bracket.closing
  | .bracketMismatch _ closed _ => closed.closing
  | .unterminatedLiteral quote _ => quote.symbol
  | .separatorMismatch _ found _ => found.symbol
  | .unresolved remainder _ => remainder
  | .tooDeep _ _ => []

/-- What was called for at the point of failure. -/
def expected : ParseError → Option Expected
  | .disallowed category _ _ => some category
  | .unexpected expected _ _ => some expected
  | .unexpectedClosing _ _ => some .term
  | .bracketMismatch _ _ _ => some .closeBracket
  | .unterminatedLiteral _ _ => some .quote
  | .separatorMismatch _ _ _ => some .separator
  | .unresolved _ _ => some .terminal
  | .tooDeep _ _ => none

/-- The byte offset of the failure, which all errors but `tooDeep` have. -/
def offset : ParseError → Option Nat
  | .disallowed _ _ offset
  | .unexpected _ _ offset
  | .unexpectedClosing _ offset
  | .bracketMismatch _ _ offset
  | .unterminatedLiteral _ offset
  | .separatorMismatch _ _ offset
  | .unresolved _ offset => some offset
  | .tooDeep _ _ => none

/-- The wording of the error. -/
def message : ParseError → Text
  | .disallowed category lexeme _ =>
    "Syntax error. ".toList ++ Text.ticked lexeme ++ " does not match syntax rules: ".toList
      ++ category.display ++ " is not allowed".toList
  | .unexpected expected [] _ =>
    "Expected ".toList ++ expected.display ++ ", but reached end of input".toList
  | .unexpected expected found _ =>
    "Expected ".toList ++ expected.display ++ ", but got: ".toList ++ Text.ticked found
  | .unexpectedClosing bracket _ =>
    "Unexpected closing bracket: ".toList ++ Text.ticked bracket.closing
  | .bracketMismatch opened closed _ =>
    "Brackets mismatch: ".toList ++ Text.ticked opened.opening ++ " closed by ".toList
      ++ Text.ticked closed.closing
  | .unterminatedLiteral quote _ =>
    "Expected literal closed by ".toList ++ quote.symbol ++ ", but terminated".toList
  | .separatorMismatch expected found _ =>
    "Expected ".toList ++ Text.ticked expected.symbol ++ " separator, but got: ".toList
      ++ Text.ticked found.symbol
  | .unresolved remainder _ => "Unresolved expression: ".toList ++ Text.ticked remainder
  | .tooDeep depth maxDepth =>
    "Recursion limit exceeded: depth ".toList ++ Text.ofNat depth ++ " exceeds limit of ".toList
      ++ Text.ofNat maxDepth

end ParseError

end FlatExpr
