import FlatExpr.Vocabulary.Basic

/-!
# Quotes, brackets and separators

The symbols that enclose or divide expressions. A bracket kind has two spellings, an opening and a
closing one; the separator `space` stands for any run of white space.
-/

namespace FlatExpr

/-! ## Quotes -/

/-- A quotation mark; a literal is closed only by the mark that opened it. -/
inductive Quote where
  | single | double | backtick
  deriving DecidableEq

namespace Quote

/-- Every quotation mark. -/
def members : List Quote := [.single, .double, .backtick]

/-- The symbol of a quotation mark. -/
def symbol : Quote → Text
  | .single => "\x27".toList
  | .double => "\"".toList
  | .backtick => "\x60".toList

/-- The stored name of a quotation mark. -/
def name : Quote → Text
  | .single => "SINGLE".toList
  | .double => "DOUBLE".toList
  | .backtick => "BACKTICK".toList

instance : Vocabulary Quote where
  toNamed := .ofMembers members name (by intro a; cases a <;> rfl)
  members := members
  symbol := symbol

end Quote

/-! ## Brackets -/

/-- A kind of bracket pair. -/
inductive Bracket where
  | parenthesis | square | curly | angle
  deriving DecidableEq

namespace Bracket

/-- Every kind of bracket pair. -/
def members : List Bracket := [.parenthesis, .square, .curly, .angle]

/-- The opening bracket of a pair. -/
def opening : Bracket → Text
  | .parenthesis => "(".toList
  | .square => "[".toList
  | .curly => "\x7b".toList
  | .angle => "<".toList

/-- The closing bracket of a pair. -/
def closing : Bracket → Text
  | .parenthesis => ")".toList
  | .square => "]".toList
  | .curly => "\x7d".toList
  | .angle => ">".toList

/-- Whether a text is the opening bracket of some pair. -/
def isOpening (t : Text) : Bool := members.any fun b => b.opening == t

/-- Whether a text is the closing bracket of some pair. -/
def isClosing (t : Text) : Bool := members.any fun b => b.closing == t

/-- The stored name of a kind of bracket pair. -/
def name : Bracket → Text
  | .parenthesis => "PARENTHESIS".toList
  | .square => "SQUARE".toList
  | .curly => "CURLY".toList
  | .angle => "ANGLE".toList

instance : Vocabulary Bracket where
  toNamed := .ofMembers members name (by intro a; cases a <;> rfl)
  members := members
  symbol := opening
  spellings b := [b.opening, b.closing]
  display b := b.opening ++ b.closing

end Bracket

/-! ## Separators -/

/-- What stands between the terms of a sequence. -/
inductive Separator where
  | comma | dot | colon | space
  deriving DecidableEq

namespace Separator

/-- Every separator. -/
def members : List Separator := [.comma, .dot, .colon, .space]

/-- The symbol of a separator; a single blank stands for every run of white space. -/
def symbol : Separator → Text
  | .comma => ",".toList
  | .dot => ".".toList
  | .colon => ":".toList
  | .space => " ".toList

/-- Whether the separator is white space. -/
def isWhitespace : Separator → Bool
  | .space => true
  | _ => false

/-- The stored name of a separator. -/
def name : Separator → Text
  | .comma => "COMMA".toList
  | .dot => "DOT".toList
  | .colon => "COLON".toList
  | .space => "SPACE".toList

instance : Vocabulary Separator where
  toNamed := .ofMembers members name (by intro a; cases a <;> rfl)
  members := members
  symbol := symbol

end Separator

end FlatExpr
