import FlatExpr.Json.Basic

/-!
# Writing JSON

Documents are written without any white space (`Json.compact`), or with every item and field on a
line of its own, indented by two blanks for each level (`Json.pretty`). In strings only quotation
marks, backslashes and control characters are escaped.
-/

namespace FlatExpr.Json

/-- A hexadecimal digit. -/
def hexDigit (n : Nat) : Char := ("0123456789abcdef".toList[n % 16]?).getD '0'

/-- A character inside a string. -/
def escape (c : Char) : Text :=
  if c = '"' then "\\\"".toList
  else if c = '\\' then "\\\\".toList
  else if c = '\x08' then "\\b".toList
  else if c = '\t' then "\\t".toList
  else if c = '\n' then "\\n".toList
  else if c = '\x0c' then "\\f".toList
  else if c = '\r' then "\\r".toList
  else if c.toNat < 32 then
    "\\u00".toList ++ [hexDigit (c.toNat / 16), hexDigit c.toNat]
  else [c]

/-- A text as a string. -/
def quote (t : Text) : Text := "\"".toList ++ t.flatMap escape ++ "\"".toList

/-- The string for a content; what denotes no text is written as the replacement character. -/
def quoteContent (content : Option Text) : Text := quote (content.getD ['\ufffd'])

/-- The white space of a written document. -/
structure Spacing where
  /-- What starts a new line at a level. -/
  line : Nat → Text
  /-- What stands between the name and the value of a field. -/
  colon : Text

/-- No white space at all. -/
def Spacing.none : Spacing := ⟨fun _ => [], ":".toList⟩

/-- A line for every item, indented by two blanks for each level. -/
def Spacing.lines : Spacing :=
  ⟨fun level => "\n".toList ++ List.replicate (2 * level) ' ', ": ".toList⟩

mutual

/-- The document with the given white space, at a level and in front of the text `tail`. -/
def write (spacing : Spacing) (level : Nat) : Json → (tail : Text) → Text
  | .null, tail => "null".toList ++ tail
  | .bool true, tail => "true".toList ++ tail
  | .bool false, tail => "false".toList ++ tail
  | .number n, tail => n.text ++ tail
  | .string content, tail => quoteContent content ++ tail
  | .array [], tail => "[]".toList ++ tail
  | .array (item :: items), tail =>
    "[".toList ++ (spacing.line (level + 1) ++ write spacing (level + 1) item
      (writeItems spacing (level + 1) items (spacing.line level ++ ("]".toList ++ tail))))
  | .object [], tail => "\x7b\x7d".toList ++ tail
  | .object ((name, value) :: fields), tail =>
    "\x7b".toList ++ (spacing.line (level + 1) ++ (quoteContent name ++ (spacing.colon ++
      write spacing (level + 1) value
        (writeFields spacing (level + 1) fields (spacing.line level ++ ("\x7d".toList ++ tail))))))

/-- Further items of an array, each after a comma, in front of the text `tail`. -/
def writeItems (spacing : Spacing) (level : Nat) : List Json → (tail : Text) → Text
  | [], tail => tail
  | item :: items, tail =>
    ",".toList ++ (spacing.line level ++ write spacing level item
      (writeItems spacing level items tail))

/-- Further fields of an object, each after a comma, in front of the text `tail`. -/
def writeFields (spacing : Spacing) (level : Nat) : List (Option Text × Json) → (tail : Text) → Text
  | [], tail => tail
  | (name, value) :: fields, tail =>
    ",".toList ++ (spacing.line level ++ (quoteContent name ++ (spacing.colon ++
      write spacing level value (writeFields spacing level fields tail))))

end

/-- The document without white space. -/
def compact (j : Json) : Text := write .none 0 j []

/-- The document with every item and field on a line of its own. -/
def pretty (j : Json) : Text := write .lines 0 j []

end FlatExpr.Json
