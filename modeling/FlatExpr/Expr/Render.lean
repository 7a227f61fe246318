import FlatExpr.Expr.Basic

/-!
# Rendering on one line

A tree is written with normalized spacing: one blank on either side of an infix operator and between
the terms of a sequence by white space, and one blank after any other separator. Adjacent
punctuation is one lexeme, so a prefix operator is kept apart from an operator that starts its
operand, and a separator from an operator that ends the term before it.
-/

namespace FlatExpr.Expr

/-- Whether the rendering starts with a prefix operator. -/
def startsWithOperator : Expr → Bool
  | .prefixed _ _ => true
  | .postfixed operand _ => startsWithOperator operand
  | .binary left _ _ => startsWithOperator left
  | .chain first _ => startsWithOperator first
  | .sequence (term :: _) _ => startsWithOperator term
  | _ => false

mutual

/-- Whether the rendering ends with a postfix operator. -/
def endsWithOperator : Expr → Bool
  | .postfixed _ _ => true
  | .prefixed _ operand => endsWithOperator operand
  | .binary _ _ right => endsWithOperator right
  | .chain _ rest => lastLinkEndsWithOperator rest
  | .sequence terms _ => lastTermEndsWithOperator terms
  | _ => false

/-- Whether the last of some further operands ends with a postfix operator. -/
def lastLinkEndsWithOperator : List (InfixOp × Expr) → Bool
  | [] => false
  | [(_, operand)] => endsWithOperator operand
  | _ :: next :: rest => lastLinkEndsWithOperator (next :: rest)

/-- Whether the last of some terms ends with a postfix operator. -/
def lastTermEndsWithOperator : List Expr → Bool
  | [] => false
  | [term] => endsWithOperator term
  | _ :: next :: rest => lastTermEndsWithOperator (next :: rest)

end

/-- What is written between two terms of a sequence. -/
def gap (separator : Separator) (afterOperator : Bool) : Text :=
  if separator.isWhitespace then " ".toList
  else (if afterOperator then " ".toList else []) ++ separator.symbol ++ " ".toList

mutual

/-- The tree on one line. -/
def render : Expr → Text
  | .identifier name => name
  | .numeric value => value
  | .literal quote value => quote.symbol ++ value ++ quote.symbol
  | .prefixed op operand =>
    op.symbol ++ (if operand.startsWithOperator then " ".toList else []) ++ render operand
  | .postfixed operand op => render operand ++ op.symbol
  | .binary left op right => render left ++ " ".toList ++ op.symbol ++ " ".toList ++ render right
  | .chain first rest => render first ++ renderLinks rest
  | .bracketed bracket inner => bracket.opening ++ render inner ++ bracket.closing
  | .sequence [] _ => []
  | .sequence (term :: terms) separator =>
    render term ++ renderTerms separator term.endsWithOperator terms

/-- Further operands of a chain, each with the operator before it. -/
def renderLinks : List (InfixOp × Expr) → Text
  | [] => []
  | (op, operand) :: rest =>
    " ".toList ++ op.symbol ++ " ".toList ++ render operand ++ renderLinks rest

/-- Further terms of a sequence, each with the separator before it; `afterOperator` says whether the
term before the first of them ends with an operator. -/
def renderTerms (separator : Separator) (afterOperator : Bool) : List Expr → Text
  | [] => []
  | term :: terms =>
    gap separator afterOperator ++ render term
      ++ renderTerms separator term.endsWithOperator terms

end

end FlatExpr.Expr
