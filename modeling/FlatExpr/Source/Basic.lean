import FlatExpr.Text.Basic

/-!
# Sources

A source is a text with an identity. Two sources may say the same and still be two, and what stands
in one of them does not stand in the other. Places in a source are byte offsets; what a source reads
from a place on is determined by the place (`Source.Reads.unique`).
-/

namespace FlatExpr

/-- A source text. -/
structure Source where
  /-- Which source it is. -/
  id : Nat
  /-- What it says. -/
  text : Text
  deriving DecidableEq

/-- A text that is the only source needs no identity. -/
instance : Coe Text Source := ⟨fun t => ⟨0, t⟩⟩

namespace Source

/-- From byte `start` on, the source reads `tail`. -/
def Reads (s : Source) (start : Nat) (tail : Text) : Prop :=
  ∃ passed, s.text = passed ++ tail ∧ Text.byteLength passed = start

variable {s : Source} {start : Nat} {t tail : Text}

/-- From its first byte on, a source reads all that it says. -/
theorem reads_zero (s : Source) : s.Reads 0 s.text := ⟨[], rfl, rfl⟩

/-- At its end, a source reads nothing. -/
theorem reads_end (s : Source) : s.Reads (Text.byteLength s.text) [] :=
  ⟨s.text, (List.append_nil _).symm, rfl⟩

/-- After the first part of what is read, the other part is read. -/
theorem Reads.append (h : s.Reads start (t ++ tail)) :
    s.Reads (start + Text.byteLength t) tail := by
  obtain ⟨passed, htext, hstart⟩ := h
  refine ⟨passed ++ t, ?_, ?_⟩
  · rw [htext, List.append_assoc]
  · rw [Text.byteLength_append, hstart]

/-- What is read from a place on is what a cut of the source there leaves. -/
theorem reads_iff :
    s.Reads start tail ↔ ∃ passed, Text.splitAt? s.text start = some (passed, tail) :=
  exists_congr fun _ => (Text.splitAt?_eq_some_iff _ _ _ _).symm

/-- From one place on, a source reads one text. -/
theorem Reads.unique (h : s.Reads start t) (h' : s.Reads start tail) : t = tail := by
  obtain ⟨passed, hcut⟩ := reads_iff.1 h
  obtain ⟨passed', hcut'⟩ := reads_iff.1 h'
  rw [hcut] at hcut'
  exact (Prod.mk.inj (Option.some.inj hcut')).2

end Source

end FlatExpr
