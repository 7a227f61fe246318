import FlatExpr.ParseError
import FlatExpr.Source.Position
import FlatExpr.Source.Snippet

/-!
# Error reports

An error together with the source it arose in: where the failure is, and the message followed by
the offending line with a caret.
-/

namespace FlatExpr.ParseError

/-- The place of the failure. -/
def position (e : ParseError) (input : Text) : Option SourcePosition :=
  e.offset.map (SourcePosition.ofOffset input)

/-- The message, and the place and the line of the failure where the error has one; `none` when the
offset of the error lies inside a character. -/
def report? (e : ParseError) (input : Text) : Option Text :=
  match e.position input with
  | none => some e.message
  | some p => do
    let snippet ← Snippet.render? input p.offset 0
    return e.message ++ " at ".toList ++ p.display ++ "\n".toList ++ snippet

end FlatExpr.ParseError
