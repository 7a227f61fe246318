import FlatExpr.Dialect
import FlatExpr.Storage.Codec

/-!
# Stored dialects

A dialect is stored as a record with one field for each of its eight parts, and a part as a choice
between four modes, two of which have a list of values as their content. A part that is missing
allows everything. The values of the parts for identifiers and numerics are texts, those of the
other parts are named.
-/

namespace FlatExpr

/-! ## Allow-lists -/

namespace Allowed

/-- How an allow-list is given. -/
inductive Mode where
  | all | none | only | except
  deriving DecidableEq

namespace Mode

/-- Every mode. -/
def members : List Mode := [.all, .none, .only, .except]

/-- The stored name of a mode. -/
def name : Mode → Text
  | .all => "all".toList
  | .none => "none".toList
  | .only => "only".toList
  | .except => "except".toList

instance : Named Mode := .ofMembers members name (by intro a; cases a <;> rfl)

/-- The name under which the mode is stored. -/
def tag : Text := "mode".toList

/-- The name under which the values are stored. -/
def content : Text := "values".toList

end Mode

end Allowed

namespace Codec

variable (K : Codec) {α : Type} [Named α]

/-- The value with a stored name, out of the members of a vocabulary. -/
def member? (members : List α) (j : Json) : Option α :=
  K.name? (members.map Named.name) j >>= Named.ofName?

/-- The set of the values that the items of a list are read as. -/
def values? (item? : Json → Option α) : Option Json → Option (NameSet α)
  | none => none
  | some j => do return NameSet.ofList (← (← K.items? j).mapM item?)

/-- The allow-list of a mode and its values, which are read by `item?`. -/
def ofMode? (item? : Json → Option α) (mode : Json) (values : Option Json) :
    Option (Allowed α) := do
  match ← K.member? Allowed.Mode.members mode with
  | .all => if K.isVoid values then some .all else none
  | .none => if K.isVoid values then some .none else none
  | .only => (K.values? item? values).map .only
  | .except => (K.values? item? values).map .except

/-- The allow-list that a document holds. -/
def allowed? (item? : Json → Option α) (j : Json) : Option (Allowed α) := do
  let (mode, values) ← K.tagged? Allowed.Mode.tag Allowed.Mode.content j
  K.ofMode? item? mode values

/-- The document of a mode, with the documents of its values. -/
def ofMode (mode : Allowed.Mode) (values : Option (List Json)) : Json :=
  K.ofTagged Allowed.Mode.tag Allowed.Mode.content mode.name (values.map K.ofItems)

/-- The document of an allow-list, whose values are listed by `order` and written by `item`. -/
def ofAllowed (item : α → Json) (order : NameSet α → List α) : Allowed α → Json
  | .all => K.ofMode .all none
  | .none => K.ofMode .none none
  | .only values => K.ofMode .only (some ((order values).map item))
  | .except values => K.ofMode .except (some ((order values).map item))

end Codec

/-! ## Parts of a dialect -/

namespace Dialect

/-- A part of a dialect. -/
inductive Part where
  | identifiers | numerics | prefixes | infixes | postfixes | separators | quotes | brackets
  deriving DecidableEq

namespace Part

/-- Every part, in the order of storage. -/
def all : List Part :=
  [.identifiers, .numerics, .prefixes, .infixes, .postfixes, .separators, .quotes, .brackets]

/-- The stored name of a part. -/
def name : Part → Text
  | .identifiers => "identifiers".toList
  | .numerics => "numerics".toList
  | .prefixes => "prefixes".toList
  | .infixes => "infixes".toList
  | .postfixes => "postfixes".toList
  | .separators => "separators".toList
  | .quotes => "quotes".toList
  | .brackets => "brackets".toList

instance : Named Part := .ofMembers all name (by intro a; cases a <;> rfl)

/-- What the values are that a part of a dialect is about. -/
abbrev Value : Part → Type
  | .identifiers | .numerics => Text
  | .prefixes => PrefixOp
  | .infixes => InfixOp
  | .postfixes => PostfixOp
  | .separators => Separator
  | .quotes => Quote
  | .brackets => Bracket

instance (p : Part) : Named p.Value :=
  match p with
  | .identifiers | .numerics => inferInstanceAs (Named Text)
  | .prefixes => inferInstanceAs (Named PrefixOp)
  | .infixes => inferInstanceAs (Named InfixOp)
  | .postfixes => inferInstanceAs (Named PostfixOp)
  | .separators => inferInstanceAs (Named Separator)
  | .quotes => inferInstanceAs (Named Quote)
  | .brackets => inferInstanceAs (Named Bracket)

/-- The values of a part that has a closed vocabulary. -/
def vocabulary? : (p : Part) → Option (List p.Value)
  | .identifiers | .numerics => none
  | .prefixes => some (Vocabulary.members (α := PrefixOp))
  | .infixes => some (Vocabulary.members (α := InfixOp))
  | .postfixes => some (Vocabulary.members (α := PostfixOp))
  | .separators => some (Vocabulary.members (α := Separator))
  | .quotes => some (Vocabulary.members (α := Quote))
  | .brackets => some (Vocabulary.members (α := Bracket))

end Part

/-- The allow-list of a part. -/
def allowed (d : Dialect) : (p : Part) → Allowed p.Value
  | .identifiers => d.identifiers
  | .numerics => d.numerics
  | .prefixes => d.prefixes
  | .infixes => d.infixes
  | .postfixes => d.postfixes
  | .separators => d.separators
  | .quotes => d.quotes
  | .brackets => d.brackets

/-- The dialect with another allow-list for a part. -/
def set (d : Dialect) : (p : Part) → Allowed p.Value → Dialect
  | .identifiers, a => { d with identifiers := a }
  | .numerics, a => { d with numerics := a }
  | .prefixes, a => { d with prefixes := a }
  | .infixes, a => { d with infixes := a }
  | .postfixes, a => { d with postfixes := a }
  | .separators, a => { d with separators := a }
  | .quotes, a => { d with quotes := a }
  | .brackets, a => { d with brackets := a }

/-- The orders in which the members of the sets of a dialect are listed. -/
abbrev Order := (p : Part) → NameSet p.Value → List p.Value

end Dialect

/-! ## Dialects -/

namespace Codec

open Dialect (Part Order)

variable (K : Codec)

/-- The value of a part that an item of a list is read as. -/
def item? (p : Part) (j : Json) : Option p.Value :=
  match p.vocabulary? with
  | none => K.text? j >>= Named.ofName?
  | some members => K.member? members j

/-- The item for a value of a part. -/
def item (p : Part) (a : p.Value) : Json :=
  match p.vocabulary? with
  | none => K.ofText (Named.name a)
  | some _ => K.ofName (Named.name a)

/-- The allow-list of a part that a document holds. -/
def part? (p : Part) (j : Json) : Option (Allowed p.Value) := K.allowed? (K.item? p) j

/-- The document of the allow-list of a part. -/
def ofPart (order : Order) (d : Dialect) (p : Part) : Json :=
  K.ofAllowed (K.item p) (order p) (d.allowed p)

/-- The dialect with the allow-list that a document holds in place of one of its parts. -/
def setPart? (d : Dialect) (p : Part) (j : Json) : Option Dialect := (K.part? p j).map (d.set p)

/-- The dialect with the given parts in place of those of `d`; a part that is missing stays. -/
def setParts? (d : Dialect) : List (Part × Option Json) → Option Dialect
  | [] => some d
  | (_, none) :: parts => setParts? d parts
  | (p, some j) :: parts => do setParts? (← K.setPart? d p j) parts

/-- The dialect that a document holds; what is missing allows everything. -/
def dialect? (j : Json) : Option Dialect := do
  K.setParts? .full (Part.all.zip (← K.record? (Part.all.map Part.name) j))

/-- The document of a dialect, with the members of its sets in the given orders. -/
def ofDialect (order : Order) (d : Dialect) : Json :=
  K.ofRecord (Part.all.map fun p => (p.name, K.ofPart order d p))

/-- The dialect that a stored form holds. -/
def load? (t : Text) : Option Dialect := K.parse? t >>= K.dialect?

/-- The stored form of a dialect. -/
def dump? (order : Order) (d : Dialect) : Option Text := K.print? (K.ofDialect order d)

end Codec

namespace Dialect

/-- By the order of their names. -/
def byName : Order := fun _ values => values.members

/-- The document of the allow-list of a part. -/
def part (d : Dialect) (p : Part) : Json := Codec.json.ofPart byName d p

/-- The dialect with the allow-list that a document holds in place of one of its parts. -/
def setPart? (d : Dialect) (p : Part) (j : Json) : Option Dialect := Codec.json.setPart? d p j

/-- The document of the dialect. -/
def toJson (d : Dialect) : Json := Codec.json.ofDialect byName d

/-- The dialect that a document holds. -/
def ofJson? (j : Json) : Option Dialect := Codec.json.dialect? j

/-- The stored form of the dialect. -/
def dump (d : Dialect) : Text := d.toJson.pretty

/-- The dialect that a stored form holds. -/
def load? (t : Text) : Option Dialect := Codec.json.load? t

end Dialect

end FlatExpr
