import FlatExpr.CharKind
import FlatExpr.Text.Basic

/-!
# Stored names

Members of the closed vocabularies are stored and reported by name. `Named` ties a type to its
names: reading a name gives a member exactly when that is the name of the member, so that names are
read case-sensitively and no two members share one.
-/

namespace FlatExpr

/-- A type whose values have names that can be read back. -/
class Named (α : Type) where
  /-- The name of a value. -/
  name : α → Text
  /-- The value of a given name. -/
  ofName? : Text → Option α
  /-- A name is read as the value that bears it, and as no other. -/
  ofName?_eq_some_iff : ∀ (t : Text) (a : α), ofName? t = some a ↔ name a = t

namespace Named

/-- Reading the name of a value gives the value. -/
@[simp] theorem ofName?_name {α : Type} [Named α] (a : α) : ofName? (name a) = some a :=
  (ofName?_eq_some_iff _ a).2 rfl

/-- Values with the same name are equal. -/
theorem name_inj {α : Type} [Named α] {a b : α} (h : name a = name b) : a = b := by
  have ha := ofName?_name a
  rw [h, ofName?_name] at ha
  exact (Option.some.inj ha).symm

/-- Names read by searching a list of members, each of which is found under its own name. -/
@[reducible] def ofMembers {α : Type} (members : List α) (name : α → Text)
    (found : ∀ a, members.find? (fun b => name b == name a) = some a) : Named α where
  name := name
  ofName? t := members.find? fun b => name b == t
  ofName?_eq_some_iff t a := by
    constructor
    · intro h
      simpa using List.find?_some h
    · rintro rfl
      exact found a

/-- A text is its own name. -/
instance : Named Text where
  name t := t
  ofName? t := some t
  ofName?_eq_some_iff t a := by
    constructor
    · rintro ⟨⟩
      rfl
    · rintro rfl
      rfl

end Named

namespace CharKind

/-- The stored name of a character kind. -/
def name : CharKind → Text
  | .whitespace => "WHITESPACE".toList
  | .digit => "DIGIT".toList
  | .letter => "LETTER".toList
  | .id => "ID".toList
  | .punctuation => "PUNCTUATION".toList
  | .brackets => "BRACKETS".toList
  | .quote => "QUOTE".toList
  | .other => "OTHER".toList

instance : Named CharKind :=
  .ofMembers [.whitespace, .digit, .letter, .id, .punctuation, .brackets, .quote, .other] name
    (by intro a; cases a <;> rfl)

end CharKind

end FlatExpr
