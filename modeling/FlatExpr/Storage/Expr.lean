import FlatExpr.Expr.Basic
import FlatExpr.Json.Basic

/-!
# Stored expressions

A tree is stored as an object that names its kind in the field `type`.
-/

namespace FlatExpr.Expr

/-- The stored name of a member of a vocabulary. -/
def nameJson {α : Type} [Named α] (a : α) : Json := .text (Named.name a)

mutual

/-- The tree as a document. -/
def toJson : Expr → Json
  | .identifier name => .record [("type", .text "identifier".toList), ("name", .text name)]
  | .numeric value => .record [("type", .text "numeric".toList), ("value", .text value)]
  | .literal quote value =>
    .record [("type", .text "literal".toList), ("quote", nameJson quote), ("value", .text value)]
  | .prefixed op operand =>
    .record [("type", .text "unary_prefix".toList), ("op", nameJson op),
      ("operand", toJson operand)]
  | .postfixed operand op =>
    .record [("type", .text "unary_postfix".toList), ("operand", toJson operand),
      ("op", nameJson op)]
  | .binary left op right =>
    .record [("type", .text "binary".toList), ("left", toJson left), ("op", nameJson op),
      ("right", toJson right)]
  | .chain first rest =>
    .record [("type", .text "multi_ari".toList), ("first", toJson first),
      ("rest", .array (linksToJson rest))]
  | .bracketed bracket inner =>
    .record [("type", .text "in_brackets".toList), ("bracket", nameJson bracket),
      ("inner", toJson inner)]
  | .sequence terms separator =>
    .record [("type", .text "sequence".toList), ("terms", .array (termsToJson terms)),
      ("separator", nameJson separator)]

/-- Further operands as documents, each a pair of an operator and an operand. -/
def linksToJson : List (InfixOp × Expr) → List Json
  | [] => []
  | (op, operand) :: rest => .array [nameJson op, toJson operand] :: linksToJson rest

/-- Terms as documents. -/
def termsToJson : List Expr → List Json
  | [] => []
  | term :: terms => toJson term :: termsToJson terms

end

/-- The member of a vocabulary that the field with a given name holds. -/
def member? (α : Type) [Named α] (name : String) (j : Json) : Option α :=
  (j.field? name.toList).bind fun v => v.text?.bind Named.ofName?

/-- The text that the field with a given name holds. -/
def content? (name : String) (j : Json) : Option Text :=
  (j.field? name.toList).bind Json.text?

/-- The pair of an operator and an operand that a document holds. -/
def linkWith? (tree : Json → Option Expr) : Json → Option (InfixOp × Expr)
  | .array [op, operand] => do return (← op.text?.bind Named.ofName?, ← tree operand)
  | _ => none

/-- The items of an array in the field with a given name. -/
def items? (name : String) (j : Json) : Option (List Json) :=
  match j.field? name.toList with
  | some (.array items) => some items
  | _ => none

/-- The tree that a document holds, with a number of levels left for nested trees. -/
def ofJsonWithin? : (levels : Nat) → Json → Option Expr
  | 0, _ => none
  | levels + 1, j => do
    let sub (name : String) : Option Expr := (j.field? name.toList).bind (ofJsonWithin? levels)
    let kind ← content? "type" j
    if kind = "identifier".toList then return .identifier (← content? "name" j)
    else if kind = "numeric".toList then return .numeric (← content? "value" j)
    else if kind = "literal".toList then
      return .literal (← member? Quote "quote" j) (← content? "value" j)
    else if kind = "unary_prefix".toList then
      return .prefixed (← member? PrefixOp "op" j) (← sub "operand")
    else if kind = "unary_postfix".toList then
      return .postfixed (← sub "operand") (← member? PostfixOp "op" j)
    else if kind = "binary".toList then
      return .binary (← sub "left") (← member? InfixOp "op" j) (← sub "right")
    else if kind = "multi_ari".toList then
      return .chain (← sub "first") (← (← items? "rest" j).mapM (linkWith? (ofJsonWithin? levels)))
    else if kind = "in_brackets".toList then
      return .bracketed (← member? Bracket "bracket" j) (← sub "inner")
    else if kind = "sequence".toList then
      return .sequence (← (← items? "terms" j).mapM (ofJsonWithin? levels))
        (← member? Separator "separator" j)
    else none

/-- The tree that a document holds. -/
def ofJson? (j : Json) : Option Expr := ofJsonWithin? j.nesting j

end FlatExpr.Expr
