import FlatExpr.Lexeme

/-!
# Scanning a source

A scanner yields the lexemes of a source one at a time. It knows where a lexeme ends only when it
has looked at the first character of the next one, or at the end of the source. So between two
lexemes it keeps the place where the pending one starts and the kind of the character it looked at
last.
-/

namespace FlatExpr

/-- A scan of a source, between two lexemes. -/
structure Scanner where
  /-- The source. -/
  source : Text
  /-- The characters that were not looked at yet. -/
  unread : Text
  /-- The byte offset of the first of these. -/
  index : Nat := 0
  /-- The byte offset where the pending lexeme starts. -/
  start : Nat := 0
  /-- The kind of the character that was looked at last. -/
  before : Option CharKind := none

namespace Scanner

/-- The start of a source. -/
def ofSource (source : Text) : Scanner := { source, unread := source }

/-- The span of the next lexeme, if there is one, and the scanner after it. Characters are looked at
up to the first that starts a new lexeme; at the end of the source the pending one is yielded. -/
def advance (source : Text) (start : Nat) :
    (before : Option CharKind) → (index : Nat) → (unread : Text) → Option (Nat × Nat) × Scanner
  | before, index, [] =>
    let length := Text.byteLength source
    if start < length then (some (start, length), ⟨source, [], index, length, before⟩)
    else (none, ⟨source, [], index, start, before⟩)
  | before, index, c :: cs =>
    let kind := CharKind.of c
    if before.any kind.startsAfter then
      (some (start, index), ⟨source, cs, index + c.utf8Size, index, some kind⟩)
    else advance source start (some kind) (index + c.utf8Size) cs

/-- What a scanner is asked for one lexeme yields. -/
inductive Yield where
  /-- A lexeme, and the scanner after it. -/
  | lexeme (l : Lexeme) (s : Scanner)
  /-- Nothing, at the end of the source. -/
  | ended
  /-- Nothing, because the span is no part of the source or ends inside a character. -/
  | broken

/-- The next lexeme. -/
def next (s : Scanner) : Yield :=
  match advance s.source s.start s.before s.index s.unread with
  | (none, _) => .ended
  | (some (start, stop), s') =>
    match Lexeme.ofSpan? s.source start stop with
    | some l => .lexeme l s'
    | none => .broken

/-! ## All lexemes -/

/-- An upper bound on the lexemes that are left: those that end before an unread character, and the
pending one. -/
def left (s : Scanner) : Nat :=
  2 * s.unread.length + if s.start < Text.byteLength s.source then 1 else 0

/-- What is yielded is not left. -/
theorem left_advance_lt {source : Text} {start index : Nat} {before : Option CharKind}
    {unread : Text} {span : Nat × Nat} {s : Scanner}
    (h : advance source start before index unread = (some span, s)) :
    s.left < 2 * unread.length + if start < Text.byteLength source then 1 else 0 := by
  fun_induction advance source start before index unread with
  | case1 before index length hlt =>
    cases h
    simp [left, length, hlt]
  | case2 => cases h
  | case3 before index c cs kind hcut =>
    cases h
    simp only [left, List.length_cons]
    split <;> split <;> omega
  | case4 before index c cs kind hcut ih =>
    have hlater := ih h
    rw [List.length_cons]
    omega

theorem left_next_lt {s s' : Scanner} {l : Lexeme} (h : s.next = .lexeme l s') :
    s'.left < s.left := by
  unfold next at h
  split at h
  · cases h
  · next hadvance =>
    split at h
    · cases h
      exact left_advance_lt hadvance
    · cases h

/-- The lexemes that are left, in order; `none` when the scan breaks off. -/
def collect (s : Scanner) : Option (List Lexeme) :=
  match h : s.next with
  | .ended => some []
  | .broken => none
  | .lexeme l s' =>
    have : s'.left < s.left := left_next_lt h
    (collect s').map (l :: ·)
termination_by s.left

theorem collect_of_ended {s : Scanner} (h : s.next = .ended) : s.collect = some [] := by
  rw [collect]
  split
  · rfl
  · next hnext => rw [h] at hnext; cases hnext
  · next hnext => rw [h] at hnext; cases hnext

theorem collect_of_lexeme {s s' : Scanner} {l : Lexeme} (h : s.next = .lexeme l s') :
    s.collect = s'.collect.map (l :: ·) := by
  rw [collect]
  split
  · next hnext => rw [h] at hnext; cases hnext
  · next hnext => rw [h] at hnext; cases hnext
  · next hnext => rw [h] at hnext; cases hnext; rfl

end Scanner

end FlatExpr
