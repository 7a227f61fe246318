import FlatExpr.Number.Numeral

/-!
# JSON documents

Documents are kept as they are written: numbers as numerals, and the fields of an object in their
order with repetitions. A string is kept as the text it denotes, if it denotes one: an escape may
leave half of a surrogate pair, which stands for no character.
-/

namespace FlatExpr

/-- A JSON document. -/
inductive Json where
  /-- The word `null`. -/
  | null
  /-- One of the words `true` and `false`. -/
  | bool (value : Bool)
  /-- A number. -/
  | number (numeral : Numeral)
  /-- A string, with the text that it denotes. -/
  | string (content : Option Text)
  /-- A list of documents. -/
  | array (items : List Json)
  /-- A list of named documents. -/
  | object (fields : List (Option Text × Json))

namespace Json

/-- The string of a text. -/
def text (t : Text) : Json := .string (some t)

/-- The number of a natural number. -/
def nat (n : Nat) : Json := .number (.ofNat n)

/-- The number of an integer. -/
def int (n : Int) : Json := .number (.ofInt n)

/-- The object with the given fields. -/
def record (fields : List (String × Json)) : Json :=
  .object (fields.map fun f => (some f.1.toList, f.2))

/-- What a document that may be absent is written as. -/
def ofOption {α : Type} (f : α → Json) : Option α → Json
  | none => .null
  | some a => f a

/-- The text that a string denotes. -/
def text? : Json → Option Text
  | .string content => content
  | _ => none

/-- The value of the last field with a given name. -/
def field? (name : Text) : Json → Option Json
  | .object fields => (fields.reverse.find? fun f => f.1 == some name).map Prod.snd
  | _ => none

mutual

/-- How deeply a document is nested. -/
def nesting : Json → Nat
  | .array items => itemsNesting items + 1
  | .object fields => fieldsNesting fields + 1
  | _ => 0

/-- How deeply the items of an array are nested. -/
def itemsNesting : List Json → Nat
  | [] => 0
  | j :: js => max (nesting j) (itemsNesting js)

/-- How deeply the values of the fields of an object are nested. -/
def fieldsNesting : List (Option Text × Json) → Nat
  | [] => 0
  | (_, j) :: fs => max (nesting j) (fieldsNesting fs)

end

end Json

end FlatExpr
