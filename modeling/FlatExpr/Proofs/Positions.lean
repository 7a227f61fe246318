import Mathlib.Data.List.DropRight
import FlatExpr.Source.Position

/-!
# Counting lines and columns

The place at a byte offset is computed by one pass over the characters. Here it is compared with
what it means: the line is told by the line feeds among the characters that start before the offset,
and the column by the characters after the last of these (`SourcePosition.counts_ofOffset`). Both
hold for every offset, also inside a character and beyond the end.

Between two characters the passed text is what is before the offset, so that the place is a function
of that text (`SourcePosition.ofOffset_append`). More text moves the place forward, either to a
later line or further on in the same one (`SourcePosition.precedes_ofOffset`).
-/

namespace FlatExpr

namespace Text

/-- The characters of a text, each with the byte offset where it starts. The text itself starts at
byte `start`. -/
def offsets (start : Nat) : Text → List (Nat × Char)
  | [] => []
  | c :: cs => (start, c) :: offsets (start + c.utf8Size) cs

/-- The characters of a text that start before byte `n`. -/
def startingBefore (t : Text) (n : Nat) : Text :=
  ((offsets 0 t).filter fun p => p.1 < n).map Prod.snd

/-- What a text has after its last line feed. -/
def lastLine (t : Text) : Text := t.rtakeWhile (· ≠ '\n')

/-- What a text has before its first line feed. -/
def firstLine (t : Text) : Text := t.takeWhile (· ≠ '\n')

/-- No character starts before the text does. -/
theorem filter_offsets_eq_nil (t : Text) {start n : Nat} (h : n ≤ start) :
    (offsets start t).filter (fun p => p.1 < n) = [] := by
  induction t generalizing start with
  | nil => rfl
  | cons c cs ih =>
    have hstart : ¬ start < n := by omega
    rw [offsets, List.filter_cons_of_neg (by simpa using hstart)]
    exact ih (by omega)

@[simp] theorem lastLine_nil : lastLine [] = [] := List.rtakeWhile_nil _

/-- A line feed starts a new line. -/
@[simp] theorem lastLine_concat_newline (t : Text) : lastLine (t ++ ['\n']) = [] :=
  List.rtakeWhile_concat_neg _ _ _ (by simp)

/-- Any other character goes on with the line. -/
theorem lastLine_concat {c : Char} (h : c ≠ '\n') (t : Text) :
    lastLine (t ++ [c]) = lastLine t ++ [c] :=
  List.rtakeWhile_concat_pos _ _ _ (by simpa using h)

theorem newline_not_mem_lastLine (t : Text) : '\n' ∉ lastLine t := by
  intro h
  simpa using List.mem_rtakeWhile_imp h

/-- The last line of a text is the whole of it, or a line feed stands before it. -/
theorem lastLine_cases (t : Text) :
    lastLine t = t ∨ ∃ before, t = before ++ '\n' :: lastLine t := by
  induction t using List.reverseRecOn with
  | nil => exact .inl lastLine_nil
  | append_singleton t c ih =>
    by_cases hc : c = '\n'
    · subst hc
      exact .inr ⟨t, by rw [lastLine_concat_newline]⟩
    · rw [lastLine_concat hc]
      rcases ih with hall | ⟨before, hbefore⟩
      · exact .inl (by rw [hall])
      · refine .inr ⟨before, ?_⟩
        rw [← List.cons_append, ← List.append_assoc, ← hbefore]

/-- Text without a line feed goes on with the last line. -/
theorem lastLine_append {t : Text} (h : '\n' ∉ t) (before : Text) :
    lastLine (before ++ t) = lastLine before ++ t := by
  induction t using List.reverseRecOn with
  | nil => rw [List.append_nil, List.append_nil]
  | append_singleton t c ih =>
    rw [List.mem_append, List.mem_singleton, not_or] at h
    rw [← List.append_assoc, lastLine_concat (Ne.symm h.2), ih h.1, List.append_assoc]

end Text

namespace SourcePosition

open Text

/-! ## The characters that are passed -/

/-- What is passed up to byte `n` are the characters that start before it. -/
theorem passed_eq (t : Text) (start n : Nat) :
    passed t n = ((offsets start t).filter fun p => p.1 < start + n).map Prod.snd := by
  induction t generalizing start n with
  | nil => rfl
  | cons c cs ih =>
    unfold passed
    split_ifs with hn
    · rw [filter_offsets_eq_nil _ (by omega)]
      rfl
    · have hstart : start < start + n := by omega
      rw [offsets, List.filter_cons_of_pos (by simpa using hstart), List.map_cons,
        ih (start + c.utf8Size)]
      by_cases hle : c.utf8Size ≤ n
      · have hsum : start + c.utf8Size + (n - c.utf8Size) = start + n := by omega
        rw [hsum]
      · -- the offset lies inside the character, and no other one starts before it
        rw [filter_offsets_eq_nil _ (by omega), filter_offsets_eq_nil _ (by omega)]

theorem passed_eq_startingBefore (t : Text) (n : Nat) : passed t n = startingBefore t n := by
  rw [passed_eq t 0 n, Nat.zero_add]
  rfl

/-- Up to a place between two characters, all that is before it is passed. -/
theorem passed_append (before after : Text) :
    passed (before ++ after) (byteLength before) = before := by
  induction before with
  | nil => cases after <;> simp [passed]
  | cons c cs ih =>
    have hpos := c.utf8Size_pos
    rw [List.cons_append, passed, byteLength_cons, if_neg (by omega), Nat.add_sub_cancel_left, ih]

/-! ## The pass over the characters -/

theorem offset_foldl_step (t : Text) (p : SourcePosition) : (t.foldl step p).offset = p.offset := by
  induction t generalizing p with
  | nil => rfl
  | cons c cs ih =>
    rw [List.foldl_cons, ih, step]
    split <;> rfl

theorem line_foldl_step (t : Text) (p : SourcePosition) :
    (t.foldl step p).line = p.line + t.count '\n' := by
  induction t generalizing p with
  | nil => rfl
  | cons c cs ih =>
    rw [List.foldl_cons, ih, step, List.count_cons]
    by_cases hc : c = '\n'
    · rw [if_pos hc, if_pos (by simpa using hc)]
      show p.line + 1 + cs.count '\n' = p.line + (cs.count '\n' + 1)
      omega
    · rw [if_neg hc, if_neg (by simpa using hc)]
      rfl

/-- Taken from the end, since a line feed makes the column forget what came before. -/
theorem column_foldl_step (t : Text) {p : SourcePosition} (h : p.column = 1) :
    (t.foldl step p).column = 1 + (lastLine t).length := by
  induction t using List.reverseRecOn with
  | nil => rw [lastLine_nil]; exact h
  | append_singleton t c ih =>
    rw [List.foldl_append, List.foldl_cons, List.foldl_nil, step]
    by_cases hc : c = '\n'
    · rw [if_pos hc, hc, lastLine_concat_newline]
      rfl
    · rw [if_neg hc, lastLine_concat hc, List.length_append]
      show (t.foldl step p).column + 1 = _
      rw [ih]
      rfl

/-! ## Places -/

/-- The place is that of a byte offset, which is taken as the end when it lies beyond. -/
structure Counts (input : Text) (offset : Nat) (p : SourcePosition) : Prop where
  /-- It keeps the offset, unless that is beyond the end. -/
  offset_eq : p.offset = min offset (byteLength input)
  /-- The line is one more than the line feeds among the characters before it. -/
  line_eq : p.line = 1 + (startingBefore input p.offset).count '\n'
  /-- The column is one more than the characters before it, after the last line feed. -/
  column_eq : p.column = 1 + (lastLine (startingBefore input p.offset)).length

/-- The one pass counts as it should, wherever the offset lies. -/
theorem counts_ofOffset (input : Text) (offset : Nat) :
    (ofOffset input offset).Counts input offset := by
  have hoffset : (ofOffset input offset).offset = min offset (byteLength input) :=
    offset_foldl_step _ _
  refine ⟨hoffset, ?_, ?_⟩
  · rw [hoffset, ← passed_eq_startingBefore]
    exact line_foldl_step _ _
  · rw [hoffset, ← passed_eq_startingBefore]
    exact column_foldl_step _ rfl

/-- The place between two characters, by the text before it. -/
theorem ofOffset_append (before after : Text) :
    ofOffset (before ++ after) (byteLength before) =
      ⟨byteLength before, 1 + before.count '\n', 1 + (lastLine before).length⟩ := by
  have hcounts := counts_ofOffset (before ++ after) (byteLength before)
  have hoffset : (ofOffset (before ++ after) (byteLength before)).offset = byteLength before := by
    rw [hcounts.offset_eq, byteLength_append]
    omega
  have hline := hcounts.line_eq
  have hcolumn := hcounts.column_eq
  rw [hoffset, ← passed_eq_startingBefore, passed_append] at hline hcolumn
  calc ofOffset (before ++ after) (byteLength before)
      = ⟨(ofOffset (before ++ after) (byteLength before)).offset,
          (ofOffset (before ++ after) (byteLength before)).line,
          (ofOffset (before ++ after) (byteLength before)).column⟩ := rfl
    _ = ⟨byteLength before, 1 + before.count '\n', 1 + (lastLine before).length⟩ := by
        rw [hoffset, hline, hcolumn]

/-- One place comes before another: in an earlier line, or earlier in the same line. -/
def Precedes (p q : SourcePosition) : Prop :=
  p.line < q.line ∨ p.line = q.line ∧ p.column < q.column

/-- Between characters, a later offset is a later place. -/
theorem precedes_ofOffset {input : Text} {n m : Nat} (hn : (splitAt? input n).isSome = true)
    (hm : (splitAt? input m).isSome = true) (h : n < m) :
    (ofOffset input n).Precedes (ofOffset input m) := by
  obtain ⟨⟨before, after⟩, hcut⟩ := Option.isSome_iff_exists.1 hn
  obtain ⟨⟨before', after'⟩, hcut'⟩ := Option.isSome_iff_exists.1 hm
  obtain ⟨rfl, rfl⟩ := (splitAt?_eq_some_iff _ _ _ _).1 hcut
  obtain ⟨happend, rfl⟩ := (splitAt?_eq_some_iff _ _ _ _).1 hcut'
  -- the text before the later place goes on from the text before the earlier one
  obtain ⟨between, rfl⟩ : ∃ between, before' = before ++ between := by
    rcases List.append_eq_append_iff.1 happend with ⟨between, rfl, -⟩ | ⟨between, rfl, -⟩
    · exact ⟨between, rfl⟩
    · rw [byteLength_append] at h
      omega
  rw [ofOffset_append, happend, ofOffset_append]
  unfold Precedes
  dsimp only
  by_cases hnewline : '\n' ∈ between
  · have hcount := List.count_pos_iff.2 hnewline
    left
    rw [List.count_append]
    omega
  · have hcount := List.count_eq_zero.2 hnewline
    have hlength : 0 < between.length := by
      cases between with
      | nil => rw [List.append_nil] at h; omega
      | cons c cs => exact Nat.succ_pos _
    right
    rw [List.count_append, lastLine_append hnewline, List.length_append]
    omega

end SourcePosition

end FlatExpr
