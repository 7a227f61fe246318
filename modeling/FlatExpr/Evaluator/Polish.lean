import FlatExpr.Evaluator.Basic

/-!
# Operator-first form

Writes a tree with every operator application in parentheses and infix operators in front of their
operands; a chain associates to the left.
-/

namespace FlatExpr.Evaluator

/-- Words in parentheses, divided by blanks. -/
def group (words : List Text) : Text :=
  "(".toList ++ List.intercalate " ".toList words ++ ")".toList

/-- The operator-first form of an application of an infix operator. -/
def polishBinary (left : Text) (op : InfixOp) (right : Text) : Id Text :=
  pure (group [op.symbol, left, right])

/-- The evaluator whose values are operator-first forms. -/
def polish : Evaluator Id Text :=
  ofOperators pure polishBinary (leftFold polishBinary)
    (fun op value => pure (group [op.symbol, value]))
    (fun value op => pure (group [value, op.symbol]))

end FlatExpr.Evaluator
