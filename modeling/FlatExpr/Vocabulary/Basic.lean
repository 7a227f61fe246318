import FlatExpr.Named

/-!
# Vocabularies

A vocabulary is a closed set of symbols. Each member has a canonical symbol, the spellings by which
it is recognised in a source, the text by which it is shown, and a stored name.
-/

namespace FlatExpr

/-- A closed set of symbols. -/
class Vocabulary (α : Type) extends Named α where
  /-- Every member, in the order of the vocabulary. -/
  members : List α
  /-- The canonical symbol of a member. -/
  symbol : α → Text
  /-- The texts that are recognised as a member. -/
  spellings : α → List Text := fun a => [symbol a]
  /-- The text by which a member is shown. -/
  display : α → Text := symbol

namespace Vocabulary

/-- The first member that a text spells. -/
def ofSymbol? (α : Type) [Vocabulary α] (t : Text) : Option α :=
  (members : List α).find? fun a => (spellings a).contains t

end Vocabulary

end FlatExpr
