import FlatExpr.Vocabulary.Basic

/-!
# Operators

The infix, prefix and postfix operators. A symbol may belong to several of these vocabularies:
`+` is in all three, and only its position tells which of them is meant.
-/

namespace FlatExpr

/-! ## Infix operators -/

/-- An operator between two operands. -/
inductive InfixOp where
  | plus | minus | mult | pow | div | div2 | mod | mod2
  | and | and2 | or | or2 | xor | xor2 | lsh | lsh3 | rsh | rsh3
  | eq | eq2 | eq3 | neq | neq3 | gt | lt | ge | le
  | assign | arrow | question | colon
  deriving DecidableEq

/-- What an infix operator is about. -/
inductive InfixCategory where
  | arithmetic | logical | bitwise | compare | other
  deriving DecidableEq

namespace InfixOp

/-- What the operator is about. -/
def category : InfixOp → InfixCategory
  | .plus | .minus | .mult | .pow | .div | .div2 | .mod | .mod2 => .arithmetic
  | .and2 | .or2 => .logical
  | .and | .or | .xor | .xor2 | .lsh | .lsh3 | .rsh | .rsh3 => .bitwise
  | .eq | .eq2 | .eq3 | .neq | .neq3 | .gt | .lt | .ge | .le => .compare
  | .assign | .arrow | .question | .colon => .other

/-- Every infix operator. -/
def members : List InfixOp :=
  [.plus, .minus, .mult, .pow, .div, .div2, .mod, .mod2, .and, .and2, .or, .or2, .xor, .xor2,
   .lsh, .lsh3, .rsh, .rsh3, .eq, .eq2, .eq3, .neq, .neq3, .gt, .lt, .ge, .le, .assign, .arrow,
   .question, .colon]

/-- The symbol of an infix operator. -/
def symbol : InfixOp → Text
  | .plus => "+".toList
  | .minus => "-".toList
  | .mult => "*".toList
  | .pow => "**".toList
  | .div => "/".toList
  | .div2 => "//".toList
  | .mod => "%".toList
  | .mod2 => "%%".toList
  | .and => "&".toList
  | .and2 => "&&".toList
  | .or => "|".toList
  | .or2 => "||".toList
  | .xor => "^".toList
  | .xor2 => "^^".toList
  | .lsh => "<<".toList
  | .lsh3 => "<<<".toList
  | .rsh => ">>".toList
  | .rsh3 => ">>>".toList
  | .eq => "=".toList
  | .eq2 => "==".toList
  | .eq3 => "===".toList
  | .neq => "!=".toList
  | .neq3 => "!==".toList
  | .gt => ">".toList
  | .lt => "<".toList
  | .ge => ">=".toList
  | .le => "<=".toList
  | .assign => ":=".toList
  | .arrow => "->".toList
  | .question => "?".toList
  | .colon => ":".toList

/-- The stored name of an infix operator. -/
def name : InfixOp → Text
  | .plus => "PLUS".toList
  | .minus => "MINUS".toList
  | .mult => "MULT".toList
  | .pow => "POW".toList
  | .div => "DIV".toList
  | .div2 => "DIV2".toList
  | .mod => "MOD".toList
  | .mod2 => "MOD2".toList
  | .and => "AND".toList
  | .and2 => "AND2".toList
  | .or => "OR".toList
  | .or2 => "OR2".toList
  | .xor => "XOR".toList
  | .xor2 => "XOR2".toList
  | .lsh => "LSH".toList
  | .lsh3 => "LSH3".toList
  | .rsh => "RSH".toList
  | .rsh3 => "RSH3".toList
  | .eq => "EQ".toList
  | .eq2 => "EQ2".toList
  | .eq3 => "EQ3".toList
  | .neq => "NEQ".toList
  | .neq3 => "NEQ3".toList
  | .gt => "GT".toList
  | .lt => "LT".toList
  | .ge => "GE".toList
  | .le => "LE".toList
  | .assign => "ASSIGN".toList
  | .arrow => "ARROW".toList
  | .question => "QUESTION".toList
  | .colon => "COLON".toList

instance : Vocabulary InfixOp where
  toNamed := .ofMembers members name (by intro a; cases a <;> rfl)
  members := members
  symbol := symbol

end InfixOp

namespace InfixCategory

/-- The stored name of a category of infix operators. -/
def name : InfixCategory → Text
  | .arithmetic => "ARITHMETIC".toList
  | .logical => "LOGICAL".toList
  | .bitwise => "BITWISE".toList
  | .compare => "COMPARE".toList
  | .other => "OTHER".toList

instance : Named InfixCategory :=
  .ofMembers [.arithmetic, .logical, .bitwise, .compare, .other] name
    (by intro a; cases a <;> rfl)

end InfixCategory

/-! ## Prefix operators -/

/-- An operator before its operand. -/
inductive PrefixOp where
  | not | not2 | tilde | plus | plus2 | minus | minus2 | amp | star | at
  deriving DecidableEq

namespace PrefixOp

/-- Every prefix operator. -/
def members : List PrefixOp :=
  [.not, .not2, .tilde, .plus, .plus2, .minus, .minus2, .amp, .star, .at]

/-- The symbol of a prefix operator. -/
def symbol : PrefixOp → Text
  | .not => "!".toList
  | .not2 => "!!".toList
  | .tilde => "~".toList
  | .plus => "+".toList
  | .plus2 => "++".toList
  | .minus => "-".toList
  | .minus2 => "--".toList
  | .amp => "&".toList
  | .star => "*".toList
  | .at => "@".toList

/-- The stored name of a prefix operator. -/
def name : PrefixOp → Text
  | .not => "NOT".toList
  | .not2 => "NOT2".toList
  | .tilde => "TILDE".toList
  | .plus => "PLUS".toList
  | .plus2 => "PLUS2".toList
  | .minus => "MINUS".toList
  | .minus2 => "MINUS2".toList
  | .amp => "AMP".toList
  | .star => "STAR".toList
  | .at => "AT".toList

instance : Vocabulary PrefixOp where
  toNamed := .ofMembers members name (by intro a; cases a <;> rfl)
  members := members
  symbol := symbol

end PrefixOp

/-! ## Postfix operators -/

/-- An operator after its operand. -/
inductive PostfixOp where
  | plus | plus2 | minus | minus2 | question | not2
  deriving DecidableEq

namespace PostfixOp

/-- Every postfix operator. -/
def members : List PostfixOp := [.plus, .plus2, .minus, .minus2, .question, .not2]

/-- The symbol of a postfix operator. -/
def symbol : PostfixOp → Text
  | .plus => "+".toList
  | .plus2 => "++".toList
  | .minus => "-".toList
  | .minus2 => "--".toList
  | .question => "?".toList
  | .not2 => "!!".toList

/-- The stored name of a postfix operator. -/
def name : PostfixOp → Text
  | .plus => "PLUS".toList
  | .plus2 => "PLUS2".toList
  | .minus => "MINUS".toList
  | .minus2 => "MINUS2".toList
  | .question => "QUESTION".toList
  | .not2 => "NOT2".toList

instance : Vocabulary PostfixOp where
  toNamed := .ofMembers members name (by intro a; cases a <;> rfl)
  members := members
  symbol := symbol

end PostfixOp

end FlatExpr
