import FlatExpr.Json.Printer
import FlatExpr.Json.Reader
import FlatExpr.Number.Shortest
import FlatExpr.Value

/-!
# Stored values

A value is stored as the document of its kind. A number without point and power of ten is an integer
if 64 bits hold it, and any other number, also a zero with a minus sign, is a floating-point number.
Objects are not values.
-/

namespace FlatExpr.Value

/-- Floating-point numbers are written plainly from `0.00001` up to, but not including, `1e+16`. -/
def layout : Binary64.Layout := ⟨-5, 15⟩

/-- How many arrays may be nested. -/
def greatestNesting : Nat := 127

/-- The value of a number. -/
def ofNumeral? (n : Numeral) : Option Value :=
  match n.int?.map ofInt with
  | some (.int k) => if n.negative && k == 0 then n.float?.map .float else some (.int k)
  | _ => n.float?.map .float

mutual

/-- The value that a document holds. -/
def ofJson? : Json → Option Value
  | .null => some .nil
  | .bool b => some (.bool b)
  | .number n => ofNumeral? n
  | .string content => content.map .string
  | .array items => (ofItems? items).map .array
  | .object _ => none

/-- The values that documents hold. -/
def ofItems? : List Json → Option (List Value)
  | [] => some []
  | j :: js => do return (← ofJson? j) :: (← ofItems? js)

end

mutual

/-- The value as a document. -/
def toJson : Value → Json
  | .nil => .null
  | .bool b => .bool b
  | .int n => .int n.toInt
  | .float x => .number (x.numeral layout)
  | .string t => .text t
  | .array values => .array (toItems values)

/-- The values as documents. -/
def toItems : List Value → List Json
  | [] => []
  | v :: vs => toJson v :: toItems vs

end

/-- The stored form of the value. -/
def dump (v : Value) : Text := v.toJson.compact

/-- The value that a stored form holds. -/
def load? (t : Text) : Option Value := Json.parseWithin? greatestNesting t >>= ofJson?

end FlatExpr.Value
