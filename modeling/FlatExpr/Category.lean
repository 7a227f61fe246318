import FlatExpr.Dialect
import FlatExpr.Lexeme

/-!
# Categories of lexemes

Under a dialect a lexeme has exactly one category, found by trying them in a fixed order: terminal,
white space, identifier, numeric, prefix operator, infix operator, postfix operator, quotation mark,
bracket, separator, other. A symbol that the dialect disables in one category falls through to the
next. A disabled identifier or numeric is an error instead, since no other category has its shape.
-/

namespace FlatExpr

/-- What a lexeme is under a dialect. -/
inductive Category where
  /-- The end of the source. -/
  | terminal
  /-- A run of white space. -/
  | whitespace
  /-- An identifier. -/
  | identifier (name : Text)
  /-- A numeric. -/
  | numeric (value : Text)
  /-- A prefix operator. -/
  | prefixOp (op : PrefixOp)
  /-- An infix operator. -/
  | infixOp (op : InfixOp)
  /-- A postfix operator. -/
  | postfixOp (op : PostfixOp)
  /-- A quotation mark. -/
  | quote (quote : Quote)
  /-- A bracket, opening or closing. -/
  | bracket (bracket : Bracket) (opens : Bool)
  /-- A separator. -/
  | separator (separator : Separator)
  /-- Anything else. -/
  | other (text : Text)
  deriving DecidableEq

namespace Lexeme

variable (d : Dialect) (l : Lexeme)

/-- The identifier that the lexeme is, if it has the shape of one. -/
def toIdentifier : Except ParseError (Option Text) :=
  if l.isIdentifier then (d.identifiers.require l.text .identifier l.start).map some
  else .ok none

/-- The numeric that the lexeme is, if it has the shape of one. -/
def toNumeric : Except ParseError (Option Text) :=
  if l.isNumeric then (d.numerics.require l.text .numeric l.start).map some
  else .ok none

/-- The allowed prefix operator that the lexeme spells. -/
def toPrefixOp : Option PrefixOp := d.prefixes.permit (Vocabulary.ofSymbol? PrefixOp l.text)

/-- The allowed infix operator that the lexeme spells. -/
def toInfixOp : Option InfixOp := d.infixes.permit (Vocabulary.ofSymbol? InfixOp l.text)

/-- The allowed postfix operator that the lexeme spells. -/
def toPostfixOp : Option PostfixOp := d.postfixes.permit (Vocabulary.ofSymbol? PostfixOp l.text)

/-- The allowed quotation mark that the lexeme spells. -/
def toQuote : Option Quote := d.quotes.permit (Vocabulary.ofSymbol? Quote l.text)

/-- The allowed bracket that the lexeme spells, opening or closing. -/
def toBracket : Option Bracket := d.brackets.permit (Vocabulary.ofSymbol? Bracket l.text)

/-- The allowed separator that the lexeme is; any run of white space is `space`. -/
def toSeparator : Option Separator :=
  d.separators.permit
    (if l.isWhitespace then some .space else Vocabulary.ofSymbol? Separator l.text)

/-- The category of a lexeme that is a symbol or outside every vocabulary. -/
def symbolCategory : Category :=
  match l.toPrefixOp d with
  | some op => .prefixOp op
  | none =>
  match l.toInfixOp d with
  | some op => .infixOp op
  | none =>
  match l.toPostfixOp d with
  | some op => .postfixOp op
  | none =>
  match l.toQuote d with
  | some quote => .quote quote
  | none =>
  match l.toBracket d with
  | some bracket => .bracket bracket (Bracket.isOpening l.text)
  | none =>
  match l.toSeparator d with
  | some separator => .separator separator
  | none => .other l.text

/-- The category of the lexeme. -/
def classify : Except ParseError Category :=
  if l.isTerminal then .ok .terminal
  else if l.isWhitespace then .ok .whitespace
  else
    match l.toIdentifier d with
    | .error e => .error e
    | .ok (some name) => .ok (.identifier name)
    | .ok none =>
      match l.toNumeric d with
      | .error e => .error e
      | .ok (some value) => .ok (.numeric value)
      | .ok none => .ok (l.symbolCategory d)

/-- Whether a vocabulary has the text as a symbol, and then whether the symbol is allowed. -/
def verdict {α : Type} [Vocabulary α] [DecidableEq α] (allowed : Allowed α) (t : Text) :
    Option Bool :=
  (Vocabulary.ofSymbol? α t).map allowed.allows

/-- The verdicts of the six vocabularies on the lexeme, in their order. -/
def verdicts : List (Option Bool × Expected) :=
  [(verdict d.prefixes l.text, .prefixOp),
   (verdict d.infixes l.text, .infixOp),
   (verdict d.postfixes l.text, .postfixOp),
   (verdict d.quotes l.text, .quote),
   (verdict d.brackets l.text, if Bracket.isOpening l.text then .openBracket else .closeBracket),
   (verdict d.separators l.text, .separator)]

/-- The first category that has the lexeme as a symbol, if the dialect disables the symbol in every
category that has it. -/
def disallowedCategory : Option Expected :=
  if (l.verdicts d).any fun v => v.1 == some true then none
  else ((l.verdicts d).find? fun v => v.1.isSome).map Prod.snd

end Lexeme

end FlatExpr
