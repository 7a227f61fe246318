import FlatExpr.Json.Printer
import FlatExpr.Json.Reader

/-!
# Codecs

Stored types are of a few shapes: records with fields that may be missing, choices that are kept as
a tag with a content, names out of a list, texts and lists. A codec reads values of these shapes
from documents, writes them as documents, and turns documents into texts and back. What is stored is
described over an arbitrary codec, since its readers may take more forms of a document than its
writers produce. `Codec.json` is one codec, with which the library reads and writes.
-/

namespace FlatExpr

namespace Json

/-- The value of the field with a given name, if there is one; `none` when there are several. -/
def only? (name : Text) (fields : List (Option Text × Json)) : Option (Option Json) :=
  match fields.filter fun f => f.1 == some name with
  | [] => some none
  | [f] => some (some f.2)
  | _ => none

/-- Whether every field has a name that denotes a text. -/
def namesDenote (fields : List (Option Text × Json)) : Bool := fields.all fun f => f.1.isSome

end Json

/-- Readers and writers for the shapes that stored values have. -/
structure Codec where
  /-- The document that a whole text holds. -/
  parse? : Text → Option Json
  /-- The text of a document. -/
  print? : Json → Option Text
  /-- The values of the fields with the given names, in the order of the names; a field may be
  missing. -/
  record? (names : List Text) : Json → Option (List (Option Json))
  /-- The tag and the content of a choice, which stand under the two given names; the content may be
  missing. -/
  tagged? (tag content : Text) : Json → Option (Json × Option Json)
  /-- One of the given names. -/
  name? (names : List Text) : Json → Option Text
  /-- A text. -/
  text? : Json → Option Text
  /-- The items of a list. -/
  items? : Json → Option (List Json)
  /-- Whether what stands for the content of a choice says that there is none. -/
  isVoid : Option Json → Bool
  /-- The document of a record with the given fields. -/
  ofRecord : List (Text × Json) → Json
  /-- The document of a choice with the given tag and content. -/
  ofTagged (tag content : Text) (name : Text) : Option Json → Json
  /-- The document of a name out of a list. -/
  ofName : Text → Json
  /-- The document of a text. -/
  ofText : Text → Json
  /-- The document of a list. -/
  ofItems : List Json → Json

namespace Codec

/-- Records are objects, or arrays that give the values by position. A choice is an object with the
tag and the content, or an array of the two. A name is a string, or the only field of an object,
with the value `null`. -/
def json : Codec where
  parse? := Json.parse?
  print? j := some j.pretty
  record? names
    | .object fields => if Json.namesDenote fields then names.mapM (Json.only? · fields) else none
    | .array items =>
      if items.length ≤ names.length then some ((List.range names.length).map (items[·]?)) else none
    | _ => none
  tagged? tag content
    | .object fields =>
      if Json.namesDenote fields then do
        let name ← Json.only? tag fields
        let value ← Json.only? content fields
        return (← name, value)
      else none
    | .array [name, value] => some (name, some value)
    | _ => none
  name? names
    | .string (some t) => if t ∈ names then some t else none
    | .object [(some t, .null)] => if t ∈ names then some t else none
    | _ => none
  text? := Json.text?
  items?
    | .array items => some items
    | _ => none
  isVoid
    | none | some .null => true
    | _ => false
  ofRecord fields := .object (fields.map fun f => (some f.1, f.2))
  ofTagged tag content name value :=
    .object ((some tag, .text name) :: value.toList.map fun j => (some content, j))
  ofName := .text
  ofText := .text
  ofItems := .array

end Codec

end FlatExpr
