import FlatExpr.Cursor
import FlatExpr.ParseError

/-!
# Grammar rules

A rule reads from a cursor and answers with a value or a parse error. It leaves the cursor somewhere
in either case, and reading may go on from there, so a rule yields its state together with its
answer. The state also counts how deeply operations are nested.
-/

namespace FlatExpr

/-- Where a reading stands. -/
structure ReadState where
  /-- The place in the lexemes. -/
  cursor : Cursor
  /-- How many operations the reading is inside of. -/
  depth : Nat := 0
  deriving DecidableEq

/-- A step of a reading: it takes a state to an answer and a new state. -/
def Rule (α : Type) : Type := ReadState → Except ParseError α × ReadState

namespace Rule

variable {α β : Type}

/-- Rules are run one after the other, up to the first that fails. -/
instance : Monad Rule where
  pure a := fun s => (.ok a, s)
  bind r f := fun s =>
    match r s with
    | (.ok a, s') => f a s'
    | (.error e, s') => (.error e, s')

/-- A rule and the rules that depend on its answer, run from a state. -/
theorem bind_apply (r : Rule α) (f : α → Rule β) (s : ReadState) :
    (r >>= f) s =
      match r s with
      | (.ok a, s') => f a s'
      | (.error e, s') => (.error e, s') := rfl

/-- Rules obey the laws of sequencing. -/
instance : LawfulMonad Rule :=
  .mk' Rule
    (fun r => by
      funext s
      show (r >>= pure) s = r s
      rw [bind_apply]
      rcases r s with ⟨_ | _, _⟩ <;> rfl)
    (fun _ _ => rfl)
    (fun r f g => by
      funext s
      simp only [bind_apply]
      rcases r s with ⟨_ | _, _⟩ <;> rfl)

/-- Fails and leaves the state as it is. -/
def fail (e : ParseError) : Rule α := fun s => (.error e, s)

/-- What a function sees from the cursor. -/
def look (f : Cursor → α) : Rule α := fun s => (.ok (f s.cursor), s)

/-- Moves the cursor. -/
def move (f : Cursor → Cursor) : Rule Unit := fun s => (.ok (), { s with cursor := f s.cursor })

/-- The next lexeme past one lexeme of white space, which is passed. -/
def next : Rule Lexeme := fun s => (.ok s.cursor.peekWord, { s with cursor := s.cursor.skipWord })

/-- Runs a rule one level deeper. The level is left again whether or not the rule fails. -/
def nested (r : Rule α) : Rule α := fun s =>
  let (answer, s') := r { s with depth := s.depth + 1 }
  (answer, { s' with depth := s'.depth - 1 })

end Rule

end FlatExpr
