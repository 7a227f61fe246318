import FlatExpr.NameSet
import FlatExpr.ParseError
import FlatExpr.Vocabulary.Operator

/-!
# Dialects

A dialect says which identifiers, numerics and symbols are valid. It holds one allow-list for each
of eight categories.
-/

namespace FlatExpr

/-! ## Allow-lists -/

/-- Which values of a type are allowed. -/
inductive Allowed (α : Type) [Named α] where
  /-- Every value. -/
  | all
  /-- No value. -/
  | none
  /-- The members of a set. -/
  | only (values : NameSet α)
  /-- All but the members of a set. -/
  | except (values : NameSet α)
  deriving DecidableEq

namespace Allowed

variable {α : Type} [Named α] [DecidableEq α]

/-- Whether a value is allowed. -/
def allows (allowed : Allowed α) (a : α) : Bool :=
  match allowed with
  | .all => true
  | .none => false
  | .only values => values.contains a
  | .except values => !values.contains a

/-- A value that is there and is allowed. -/
def permit (allowed : Allowed α) (a : Option α) : Option α := a.filter allowed.allows

/-- A text that is allowed, or the error that its category does not allow it. -/
def require (allowed : Allowed Text) (t : Text) (category : Expected) (offset : Nat) :
    Except ParseError Text :=
  if allowed.allows t then .ok t else .error (.disallowed category t offset)

end Allowed

/-! ## Dialects -/

/-- One allow-list for each category; without further notice everything is allowed. -/
structure Dialect where
  /-- The identifiers. -/
  identifiers : Allowed Text := .all
  /-- The numerics. -/
  numerics : Allowed Text := .all
  /-- The prefix operators. -/
  prefixes : Allowed PrefixOp := .all
  /-- The infix operators. -/
  infixes : Allowed InfixOp := .all
  /-- The postfix operators. -/
  postfixes : Allowed PostfixOp := .all
  /-- The separators. -/
  separators : Allowed Separator := .all
  /-- The quotation marks. -/
  quotes : Allowed Quote := .all
  /-- The brackets. -/
  brackets : Allowed Bracket := .all
  deriving DecidableEq

namespace Dialect

/-- The dialect that allows everything. -/
def full : Dialect := {}

/-- Whether the dialect has the eight allow-lists of `full`. -/
def isFull (d : Dialect) : Bool := d == full

end Dialect

end FlatExpr
