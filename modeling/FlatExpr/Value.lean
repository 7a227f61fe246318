import FlatExpr.Evaluator.Basic
import FlatExpr.Number.Binary64

/-!
# Dynamic values

The values of evaluators that do not fix a type of their own.
-/

namespace FlatExpr

/-- A value of any kind. -/
inductive Value where
  /-- The absent value. -/
  | nil
  /-- A truth value. -/
  | bool (b : Bool)
  /-- An integer of 64 bits. -/
  | int (n : Int64)
  /-- A floating-point number. -/
  | float (x : Binary64)
  /-- A text. -/
  | string (t : Text)
  /-- Values in order. -/
  | array (values : List Value)

namespace Value

/-- Texts are strings, and several values are an array. -/
instance : EvalValue Value where
  ofText := .string
  ofTuple := .array

/-- Whether the value is absent. -/
def isNil : Value → Bool
  | .nil => true
  | _ => false

/-- The truth value, if it is one. -/
def asBool : Value → Option Bool
  | .bool b => some b
  | _ => none

/-- The integer, if it is one. -/
def asInt : Value → Option Int64
  | .int n => some n
  | _ => none

/-- The floating-point number that the value is, or that is nearest to the integer it is. -/
def asFloat : Value → Option Binary64
  | .float x => some x
  | .int n => (Binary64.ofNat? n.toInt.natAbs).map (Binary64.withSign (decide (n.toInt < 0)))
  | _ => none

/-- The text, if it is one. -/
def asText : Value → Option Text
  | .string t => some t
  | _ => none

/-- The values of an array, if it is one. -/
def asArray : Value → Option (List Value)
  | .array values => some values
  | _ => none

/-- The integer as a value, or the absent value when 64 bits cannot hold it. -/
def ofInt (n : Int) : Value :=
  if Int64.minValue.toInt ≤ n && n ≤ Int64.maxValue.toInt then .int (.ofInt n) else .nil

mutual

/-- Whether two values are of one kind and equal; the sign of zero does not matter. -/
def equals : Value → Value → Bool
  | .nil, .nil => true
  | .bool a, .bool b => a == b
  | .int m, .int n => m == n
  | .float x, .float y => x.equals y
  | .string s, .string t => s == t
  | .array vs, .array ws => equalsAll vs ws
  | _, _ => false

/-- Whether two lists of values are equal one by one. -/
def equalsAll : List Value → List Value → Bool
  | [], [] => true
  | v :: vs, w :: ws => equals v w && equalsAll vs ws
  | _, _ => false

end

/-- Whether the value counts as true: absent values, `false` and empty texts do not. -/
def truthy : Value → Bool
  | .nil => false
  | .bool b => b
  | .string t => !t.isEmpty
  | _ => true

end Value

end FlatExpr
