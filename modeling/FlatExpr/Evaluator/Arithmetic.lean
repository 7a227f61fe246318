import FlatExpr.Number.Numeral
import FlatExpr.Value

/-!
# Integer arithmetic

Evaluates with integers of 64 bits. Whatever has no such value is absent: unknown names, numbers out
of range, overflow, division by zero, operators without a meaning here, operands of another kind.
-/

namespace FlatExpr.Evaluator

/-- The greatest exponent of a power. -/
def greatestExponent : Int := 4294967295

/-- A power. A base other than `-1`, `0` and `1` overflows before the exponent reaches 64. -/
def power (base exponent : Int) : Value :=
  if exponent < 0 || greatestExponent < exponent then .nil
  else if base.natAbs ≤ 1 then
    .ofInt (if exponent = 0 then 1 else if exponent % 2 = 0 then base * base else base)
  else if 64 ≤ exponent then .nil
  else .ofInt (Int.pow base exponent.toNat)

/-- The value of an infix operator on two integers. -/
def applyInts (m : Int) (op : InfixOp) (n : Int) : Value :=
  match op with
  | .plus => .ofInt (m + n)
  | .minus => .ofInt (m - n)
  | .mult => .ofInt (m * n)
  | .div => if n = 0 then .nil else .ofInt (m.tdiv n)
  | .mod =>
    -- the remainder is absent where the quotient is
    if n = 0 || m = Int64.minValue.toInt && n = -1 then .nil else .ofInt (m.tmod n)
  | .pow => power m n
  | .gt => .bool (decide (n < m))
  | .lt => .bool (decide (m < n))
  | .eq2 => .bool (decide (m = n))
  | _ => .nil

/-- The value of an infix operator. -/
def arithmeticBinary (left : Value) (op : InfixOp) (right : Value) : Id Value :=
  match left, right with
  | .int m, .int n => pure (applyInts m.toInt op n.toInt)
  | _, _ => pure .nil

/-- The value of a numeric, if it has decimal digits only. -/
def arithmeticNumeric (t : Text) : Value :=
  if !t.isEmpty && t.all Char.isDigit then .ofInt (Numeral.natOf t) else .nil

/-- The value of a prefix operator. -/
def arithmeticPrefixed (op : PrefixOp) (value : Value) : Value :=
  match op, value with
  | .minus, .int n => .ofInt (-n.toInt)
  | .plus, .int n => .int n
  | _, _ => .nil

/-- The value of a postfix operator. -/
def arithmeticPostfixed (value : Value) (op : PostfixOp) : Value :=
  match value, op with
  | .int n, .plus2 => .ofInt (n.toInt + 1)
  | .int n, .minus2 => .ofInt (n.toInt - 1)
  | _, _ => .nil

/-- The evaluator for integer arithmetic, with integers for some names. -/
def arithmetic (vars : Text → Option Int64) : Evaluator Id Value :=
  { ofOperators (fun name => pure (((vars name).map Value.int).getD .nil)) arithmeticBinary
      (leftFold arithmeticBinary) (fun op value => pure (arithmeticPrefixed op value))
      (fun value op => pure (arithmeticPostfixed value op)) with
    numeric := fun t => pure (arithmeticNumeric t) }

end FlatExpr.Evaluator
