import FlatExpr.Expr.Basic

/-!
# Evaluation

An evaluator gives a value to each kind of node from the values of its parts. Parts are evaluated
before the node they belong to, from left to right, in whatever monad the evaluator works in, so an
evaluator may keep a state.
-/

namespace FlatExpr

/-- Values that can stand for a text and for several values together. -/
class EvalValue (ν : Type) where
  /-- The value of a numeric or a literal. -/
  ofText : Text → ν
  /-- The value of a sequence. -/
  ofTuple : List ν → ν

/-- Texts stand for themselves, and several of them are joined by blanks. -/
instance : EvalValue Text where
  ofText t := t
  ofTuple := List.intercalate " ".toList

/-- What each kind of node means. -/
structure Evaluator (m : Type → Type) (ν : Type) where
  /-- A name. -/
  identifier : Text → m ν
  /-- A number as it was written. -/
  numeric : Text → m ν
  /-- A quoted text. -/
  literal : Quote → Text → m ν
  /-- An operator between two operands. -/
  binary : ν → InfixOp → ν → m ν
  /-- A run of operands. -/
  chain : ν → List (InfixOp × ν) → m ν
  /-- An operator before its operand. -/
  prefixed : PrefixOp → ν → m ν
  /-- An operator after its operand. -/
  postfixed : ν → PostfixOp → m ν
  /-- A value in brackets. -/
  bracketed : Bracket → ν → m ν
  /-- A sequence of values. -/
  sequence : List ν → Separator → m ν

namespace Evaluator

variable {m : Type → Type} {ν : Type} [Monad m]

/-- The evaluator with the given meaning of names and operators. Numerics and literals stand for
their text, brackets for what they enclose, and a sequence for its values together. -/
def ofOperators [EvalValue ν] (identifier : Text → m ν) (binary : ν → InfixOp → ν → m ν)
    (chain : ν → List (InfixOp × ν) → m ν) (prefixed : PrefixOp → ν → m ν)
    (postfixed : ν → PostfixOp → m ν) : Evaluator m ν where
  identifier := identifier
  numeric value := pure (EvalValue.ofText value)
  literal _ value := pure (EvalValue.ofText value)
  binary := binary
  chain := chain
  prefixed := prefixed
  postfixed := postfixed
  bracketed _ inner := pure inner
  sequence values _ := pure (EvalValue.ofTuple values)

/-- A run of operands as nested binary nodes, from the left. -/
def leftFold (binary : ν → InfixOp → ν → m ν) : ν → List (InfixOp × ν) → m ν
  | acc, [] => pure acc
  | acc, (op, value) :: rest => do
    let acc ← binary acc op value
    leftFold binary acc rest

end Evaluator

namespace Expr

variable {m : Type → Type} {ν : Type} [Monad m]

mutual

/-- The value of a tree. -/
def eval (ev : Evaluator m ν) : Expr → m ν
  | .identifier name => ev.identifier name
  | .numeric value => ev.numeric value
  | .literal quote value => ev.literal quote value
  | .prefixed op operand => do
    let value ← eval ev operand
    ev.prefixed op value
  | .postfixed operand op => do
    let value ← eval ev operand
    ev.postfixed value op
  | .binary left op right => do
    let l ← eval ev left
    let r ← eval ev right
    ev.binary l op r
  | .chain first rest => do
    let value ← eval ev first
    let values ← evalLinks ev rest
    ev.chain value values
  | .bracketed bracket inner => do
    let value ← eval ev inner
    ev.bracketed bracket value
  | .sequence terms separator => do
    let values ← evalTerms ev terms
    ev.sequence values separator

/-- The values of further operands, each with the operator before it. -/
def evalLinks (ev : Evaluator m ν) : List (InfixOp × Expr) → m (List (InfixOp × ν))
  | [] => pure []
  | (op, operand) :: rest => do
    let value ← eval ev operand
    let values ← evalLinks ev rest
    return (op, value) :: values

/-- The values of terms. -/
def evalTerms (ev : Evaluator m ν) : List Expr → m (List ν)
  | [] => pure []
  | term :: terms => do
    let value ← eval ev term
    let values ← evalTerms ev terms
    return value :: values

end

end Expr

end FlatExpr
