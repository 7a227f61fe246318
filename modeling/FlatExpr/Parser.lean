import FlatExpr.Grammar.Basic

/-!
# Reading whole sources

The entry points of a grammar. Those for one expression require that nothing but white space is left
after it; those for lists go on until that is so.
-/

namespace FlatExpr.Grammar

variable (g : Grammar)

/-- The state in which the reading of a source starts. -/
def startOf (source : Text) : ReadState := { cursor := .ofSource source }

/-- The expression that a rule reads from a whole source. -/
def parseWhole (rule : Rule Expr) (source : Text) : Except ParseError Expr :=
  match rule (startOf source) with
  | (.error e, _) => .error e
  | (.ok expr, s) => (g.checkEnd s.cursor).map fun _ => expr

/-- The expressions that a rule reads one after the other until the source is used up. Every round
passes a lexeme, so there are no more rounds than lexemes. -/
def many (rule : Rule Expr) : (lexemes : Nat) → Rule (List Expr)
  | 0 => return []
  | lexemes + 1 => do
    let ended ← Rule.look Cursor.atEnd
    if ended then return []
    else do
      let first ← rule
      let rest ← many rule lexemes
      return first :: rest

/-- The list of expressions that a rule reads from a whole source. -/
def parseMany (rule : Rule Expr) (source : Text) : Except ParseError (List Expr) :=
  let s := startOf source
  (many rule s.cursor.ahead.length s).1

/-- One sequence, or a single operation. -/
def parseSequence : Text → Except ParseError Expr := g.parseWhole g.sequence

/-- One term. -/
def parseTerm : Text → Except ParseError Expr := g.parseWhole g.term

/-- One operation. -/
def parseExpression : Text → Except ParseError Expr := g.parseWhole g.operation

/-- Terms, one after the other. -/
def parseTerms : Text → Except ParseError (List Expr) := parseMany g.term

/-- Operations, one after the other. -/
def parseExpressions : Text → Except ParseError (List Expr) := parseMany g.operation

/-- The operation that each of several sources holds, in their order. -/
def parseBatch (sources : List Text) : List (Except ParseError Expr) :=
  sources.map g.parseExpression

end FlatExpr.Grammar
