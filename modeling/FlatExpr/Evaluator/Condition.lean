import FlatExpr.Value

/-!
# Conditions

Evaluates conditions on texts: names stand for texts, values are compared for equality and combined
by their truth, and a sequence holds if one of its terms does.
-/

namespace FlatExpr.Evaluator

/-- The value of an infix operator. -/
def conditionBinary (left : Value) (op : InfixOp) (right : Value) : Id Value :=
  match op with
  | .eq => pure (.bool (left.equals right))
  | .neq => pure (.bool (!left.equals right))
  | .and2 => pure (.bool (left.truthy && right.truthy))
  | .or2 => pure (.bool (left.truthy || right.truthy))
  | _ => pure .nil

/-- The value of a prefix operator. -/
def conditionPrefixed (op : PrefixOp) (value : Value) : Value :=
  match op with
  | .not => .bool (!value.truthy)
  | _ => .nil

/-- The evaluator for conditions, with texts for some names. -/
def condition (vars : Text → Option Text) : Evaluator Id Value :=
  { ofOperators (fun name => pure (((vars name).map Value.string).getD .nil)) conditionBinary
      (leftFold conditionBinary) (fun op value => pure (conditionPrefixed op value))
      (fun _ _ => pure .nil) with
    sequence := fun values _ => pure (.bool (values.any Value.truthy)) }

end FlatExpr.Evaluator
