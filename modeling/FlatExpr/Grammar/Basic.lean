import FlatExpr.Category
import FlatExpr.Expr.Basic
import FlatExpr.Grammar.Rule
import FlatExpr.Grammar.TextRun

/-!
# The grammar

```text
sequence  := operation (separator operand)*
operation := operand (infix-operator operand)*
           | operand separator operand (separator operand)*
operand   := prefix-operator? term postfix-operator?
term      := identifier | numeric | literal | '(' operation ')' | prefix-operator operation
literal   := quote any* quote
```

There is no precedence: a run of two operands is a binary node, a longer one is a flat chain. White
space is a separator only at the level of a sequence, where the lexeme just passed tells whether
there was any. Each rule leaves the cursor after what it read and past the white space that follows.

The rules below an operation take the rule for operations as a parameter. An operation counts the
levels of nesting that are left, so every nested operation has fewer of them (`operationWithin`).
The loops count the lexemes that are left when they start, since every round passes some.
-/

namespace FlatExpr

/-- The grammar of a dialect, with a limit on the nesting of operations. -/
structure Grammar where
  /-- Which identifiers, numerics and symbols are valid. -/
  dialect : Dialect := .full
  /-- How deeply operations may be nested. -/
  maxDepth : Nat := 256
  deriving DecidableEq

namespace Grammar

open Rule

variable (g : Grammar)

/-- The error for a lexeme that does not fit the grammar. It is reported as disallowed when it is a
symbol that the dialect disables in every category. -/
def unexpected (expected : Expected) (l : Lexeme) : ParseError :=
  match l.disallowedCategory g.dialect with
  | some category => .disallowed category l.text l.start
  | none => .unexpected expected l.text l.start

/-! ## Literals -/

/-- Gathers lexemes up to one that closes the literal. The answer is `none` when a terminal comes
first. The lexemes that were passed are put behind. -/
def gather (closes : Lexeme → Bool) (run : TextRun) (behind : List Lexeme) :
    List Lexeme → Option TextRun × List Lexeme × List Lexeme
  | [] => (none, behind, [])
  | l :: ls =>
    if l.isTerminal then (none, l :: behind, ls)
    else if closes l then (some run, l :: behind, ls)
    else gather closes (run.push l) (l :: behind) ls

/-- The text up to the lexeme that closes a literal, which is passed. -/
def textUpTo (closes : Lexeme → Bool) : Rule (Option Text) := fun s =>
  let (run, behind, ahead) := gather closes .empty s.cursor.behind s.cursor.ahead
  (.ok (run.map TextRun.text), { s with cursor := { s.cursor with behind, ahead } })

/-- A quoted text. All up to the next quotation mark of the same kind is kept as it is. -/
def literal : Rule Expr := do
  let opened ← next
  match opened.toQuote g.dialect with
  | none => fail (g.unexpected .quote opened)
  | some quote => do
    let content ← textUpTo fun l => l.toQuote g.dialect == some quote
    match content with
    | none => fail (.unterminatedLiteral quote opened.start)
    | some value => do
      move Cursor.skipSpace
      return .literal quote value

/-! ## Terms -/

/-- The kind of bracket that a lexeme opens. -/
def opens? (l : Lexeme) : Option Bracket :=
  if Bracket.isOpening l.text then l.toBracket g.dialect else none

/-- The kind of bracket that a lexeme closes. -/
def closes? (l : Lexeme) : Option Bracket :=
  if Bracket.isClosing l.text then l.toBracket g.dialect else none

/-- An operation in a pair of brackets of one kind. -/
def inBracketsWith (operation : Rule Expr) : Rule Expr := do
  let opened ← next
  match g.opens? opened with
  | none => fail (g.unexpected .openBracket opened)
  | some bracket => do
    let inner ← operation
    let closed ← next
    match g.closes? closed with
    | none => fail (g.unexpected .closeBracket closed)
    | some other => do
      move Cursor.skipSpace
      if bracket = other then return .bracketed bracket inner
      else fail (.bracketMismatch bracket other closed.start)

/-- An identifier, a numeric, a literal, an operation in brackets, or an operation that starts with
a prefix operator. -/
def termWith (operation : Rule Expr) : Rule Expr := do
  move Cursor.skipSpace
  let l ← look Cursor.peek
  match l.classify g.dialect with
  | .error e => fail e
  | .ok (.identifier name) => do
    move fun c => c.skip.skipSpace
    return .identifier name
  | .ok (.numeric value) => do
    move fun c => c.skip.skipSpace
    return .numeric value
  | .ok (.prefixOp _) => operation
  | .ok (.quote _) => g.literal
  | .ok (.bracket bracket opens) =>
    if opens then g.inBracketsWith operation else fail (.unexpectedClosing bracket l.start)
  | .ok _ => fail (g.unexpected .term l)

/-! ## Operands -/

/-- Whether an operand can start with a lexeme. -/
def startsOperand (l : Lexeme) : Bool :=
  l.isIdentifier || l.isNumeric ||
    match l.classify g.dialect with
    | .ok (.prefixOp _) | .ok (.quote _) | .ok (.bracket _ true) => true
    | _ => false

/-- Whether the next word is an infix operator, because an operand can start after it. -/
def continuesAsInfix (c : Cursor) : Bool :=
  (c.peekWord.toInfixOp g.dialect).isSome && g.startsOperand c.skipWord.peekWord

/-- The postfix operator that the next word is. -/
def postfixOp? (c : Cursor) : Option PostfixOp :=
  if g.continuesAsInfix c then none else c.peekWord.toPostfixOp g.dialect

/-- A term with the operators before and after it. -/
def attach (before : Option PrefixOp) (term : Expr) (after : Option PostfixOp) : Expr :=
  let operand :=
    match before with
    | none => term
    | some op => .prefixed op term
  match after with
  | none => operand
  | some op => .postfixed operand op

/-- A term with at most one prefix and one postfix operator. -/
def operandWith (operation : Rule Expr) : Rule Expr := do
  move Cursor.skipSpace
  let before ← look fun c => c.peek.toPrefixOp g.dialect
  move fun c => if before.isSome then c.skipWord else c
  let term ← g.termWith operation
  move Cursor.skipSpace
  let after ← look g.postfixOp?
  move fun c => if after.isSome then c.skipWord.skipSpace else c.skipSpace
  return attach before term after

/-! ## Runs of operands -/

/-- The operand after an infix operator, which is the next word, and the infix operator that follows
the operand. -/
def linkWith (operand : Rule Expr) : Rule (Expr × Option InfixOp) := do
  move Cursor.skipWord
  let right ← operand
  move Cursor.skipSpace
  let following ← look fun c => c.peek.toInfixOp g.dialect
  return (right, following)

/-- The operands that follow the infix operator `op`, which is the next word, each with the operator
before it. Every round passes an operator, so there are no more rounds than lexemes. -/
def linksWith (operand : Rule Expr) : (lexemes : Nat) → (op : InfixOp) →
    Rule (List (InfixOp × Expr))
  | 0, _ => return []
  | lexemes + 1, op => do
    let (right, following) ← g.linkWith operand
    match following with
    | none => return [(op, right)]
    | some op' => do
      let rest ← linksWith operand lexemes op'
      return (op, right) :: rest

/-- The lexeme that may continue a sequence. For white space the cursor is moved back before it. -/
def separatorLexeme (separator : Separator) : Rule Lexeme :=
  if separator.isWhitespace then do
    move Cursor.backSpace
    look Cursor.peek
  else look Cursor.peekWord

/-- The term after a separator that was passed, and whether another term follows it; the separator
before that one is passed too. White space at the end of the source is not a separator. -/
def itemWith (operand : Rule Expr) (separator : Separator) : Rule (Expr × Bool) := do
  let term ← operand
  let l ← separatorLexeme separator
  match l.toSeparator g.dialect with
  | none => return (term, false)
  | some found =>
    if found = separator then do
      move fun c => if separator.isWhitespace then c.skipSpace else c.skipWord
      let ended ← look fun c => separator.isWhitespace && c.atEnd
      return (term, !ended)
    else fail (.separatorMismatch separator found l.start)

/-- The terms after a separator that was passed, up to the end of the sequence. Every round but the
last passes a term, so there is at most one round more than there are lexemes. -/
def itemsWith (operand : Rule Expr) (separator : Separator) : (rounds : Nat) → Rule (List Expr)
  | 0 => return []
  | rounds + 1 => do
    let (term, more) ← g.itemWith operand separator
    if more then do
      let terms ← itemsWith operand separator rounds
      return term :: terms
    else return [term]

/-- A sequence whose first term and first separator were read. -/
def sequenceFromWith (operation : Rule Expr) (first : Expr) (separator : Separator) :
    Rule Expr := do
  let lexemes ← look fun c => c.ahead.length
  let terms ← g.itemsWith (g.operandWith operation) separator (lexemes + 1)
  return .sequence (first :: terms) separator

/-- Operands joined by infix operators, or by one separator other than white space. -/
def runWith (operation : Rule Expr) : Rule Expr := do
  let left ← g.operandWith operation
  let l ← look Cursor.peekWord
  match l.toInfixOp g.dialect with
  | some op => do
    let lexemes ← look fun c => c.ahead.length
    let rest ← g.linksWith (g.operandWith operation) lexemes op
    return .ofRun left rest
  | none =>
    match l.toSeparator g.dialect with
    | none => return left
    | some separator =>
      if separator.isWhitespace then return left
      else do
        move Cursor.skipWord
        g.sequenceFromWith operation left separator

/-! ## Operations -/

/-- Fails because of the nesting limit. The level that was entered is not left again. -/
def refuse : Rule Expr := fun s =>
  (.error (.tooDeep (s.depth + 1) g.maxDepth), { s with depth := s.depth + 1 })

/-- A run of operands, with a number of levels left for nested operations. -/
def operationWithin : (levels : Nat) → Rule Expr
  | 0 => g.refuse
  | levels + 1 => nested (g.runWith (operationWithin levels))

/-- A run of operands one level deeper than the reading stands. -/
def operation : Rule Expr := fun s => g.operationWithin (g.maxDepth - s.depth) s

/-- An identifier, a numeric, a literal, an operation in brackets, or an operation that starts with
a prefix operator. -/
def term : Rule Expr := g.termWith g.operation

/-- An operation in a pair of brackets of one kind. -/
def inBrackets : Rule Expr := g.inBracketsWith g.operation

/-- A term with at most one prefix and one postfix operator. -/
def operand : Rule Expr := g.operandWith g.operation

/-- A sequence whose first term and first separator were read. -/
def sequenceFrom (first : Expr) (separator : Separator) : Rule Expr :=
  g.sequenceFromWith g.operation first separator

/-! ## Sequences -/

/-- An operation, and the further terms if a separator follows it. White space after the operation
counts as a separator. -/
def sequence : Rule Expr := do
  let first ← g.operation
  if first.isSequence then return first
  else do
    let spaced ← look fun c => c.last.isWhitespace
    let l ← look Cursor.peekWord
    match l.toSeparator g.dialect with
    | some separator => do
      move Cursor.skipWord
      g.sequenceFrom first separator
    | none =>
      if l.isTerminal then return first
      else if spaced && g.dialect.separators.allows .space then g.sequenceFrom first .space
      else fail (g.unexpected .separator l)

/-- Whether nothing but white space is left. -/
def checkEnd (c : Cursor) : Except ParseError Unit :=
  let l := c.peekWord
  if l.isTerminal then .ok ()
  else
    match l.disallowedCategory g.dialect with
    | some category => .error (.disallowed category l.text l.start)
    | none => .error (.unresolved l.remainder l.start)

end Grammar

end FlatExpr
