import FlatExpr.Proofs.Gaps

/-!
# Cursors with an index

A cursor can also be kept as its list of lexemes and the index of the next one. Then a move adds one
to the index or subtracts one from it, and most moves do so without a look at the index: that there
is a lexeme to be passed is known only because one was seen that is white space. Here such sums and
differences are checked, so that an operation has no result when one of them leaves the list.

Every operation on a cursor is the same operation on its index, with all checks passed
(`Cursor.perform_indexed`). What is used is that nothing is seen beyond the ends of the list, so
that white space is never seen there.
-/

namespace FlatExpr

/-- A place in a list of lexemes, as the index of the next one. -/
structure IndexCursor where
  /-- The whole list. -/
  lexemes : List Lexeme
  /-- The index of the next lexeme. -/
  next : Nat
  /-- What is seen beyond either end. -/
  terminal : Lexeme

namespace IndexCursor

variable (i : IndexCursor)

/-- The index after `n`; `none` beyond the number of lexemes, which is the greatest index there can
be. -/
def up (n : Nat) : Option Nat := if n < i.lexemes.length then some (n + 1) else none

/-- The index before `n`; `none` before the start. -/
def down : (n : Nat) → Option Nat
  | 0 => none
  | n + 1 => some n

/-- The lexeme at an index, or the terminal where the list has none. -/
def lexemeAt (n : Nat) : Lexeme := i.lexemes[n]?.getD i.terminal

/-- The lexeme some lexemes back, or the terminal before the start. -/
def behind (n : Nat) : Lexeme := if n ≤ i.next then i.lexemeAt (i.next - n) else i.terminal

/-- Whether there is a lexeme ahead. -/
def hasNext : Bool := i.next < i.lexemes.length

/-- The next lexeme. -/
def peek : Lexeme := i.lexemeAt i.next

/-- The place after the next lexeme. -/
def skip? : Option IndexCursor :=
  if i.hasNext then (i.up i.next).map fun n => { i with next := n } else some i

/-- The place after the next lexeme if that is white space. -/
def skipSpace? : Option IndexCursor :=
  -- there is no look at the index, the lexeme has been seen
  if i.peek.isWhitespace then (i.up i.next).map fun n => { i with next := n } else some i

/-- The next lexeme, past one lexeme of white space. -/
def peekWord? : Option Lexeme :=
  if i.peek.isWhitespace then (i.up i.next).map i.lexemeAt else some i.peek

/-- The place after the next lexeme, past one lexeme of white space. -/
def skipWord? : Option IndexCursor := i.skipSpace? >>= skip?

/-- Whether there is a lexeme behind. -/
def hasPrev : Bool := 0 < i.next

/-- The lexeme behind. -/
def last : Lexeme := i.behind 1

/-- The place before the lexeme behind. -/
def back? : Option IndexCursor :=
  if i.hasPrev then (down i.next).map fun n => { i with next := n } else some i

/-- The place before the lexeme behind if that is white space. -/
def backSpace? : Option IndexCursor :=
  -- again without a look at the index
  if i.last.isWhitespace then (down i.next).map fun n => { i with next := n } else some i

/-- The lexeme behind, past one lexeme of white space. -/
def lastWord : Lexeme := if i.last.isWhitespace then i.behind 2 else i.last

/-- The place after `n` lexemes, or the end of the list when it has fewer. -/
def seek (n : Nat) : IndexCursor := { i with next := min n i.lexemes.length }

end IndexCursor

namespace Cursor

variable {c : Cursor}

/-- The cursor with its index. -/
def indexed (c : Cursor) : IndexCursor := ⟨c.lexemes, c.position, c.terminal⟩

/-! ## What is seen -/

theorem getElem?_ahead (c : Cursor) (k : Nat) : c.lexemes[c.position + k]? = c.ahead[k]? := by
  rw [lexemes, position, ← List.length_reverse, List.getElem?_append_right (Nat.le_add_right _ _),
    Nat.add_sub_cancel_left]

theorem getElem?_behind (c : Cursor) {k : Nat} (h : k < c.position) :
    c.lexemes[c.position - (k + 1)]? = c.behind[k]? := by
  have hlt : c.position - (k + 1) < c.behind.reverse.length := by
    rw [List.length_reverse]
    exact Nat.sub_lt_of_pos_le (Nat.succ_pos k) h
  rw [lexemes, List.getElem?_append_left hlt, List.getElem?_reverse (by simpa using hlt)]
  congr 1
  unfold position at h ⊢
  omega

theorem lexemeAt_indexed (c : Cursor) (k : Nat) :
    c.indexed.lexemeAt (c.position + k) = c.ahead[k]?.getD c.terminal := by
  rw [IndexCursor.lexemeAt]
  show c.lexemes[c.position + k]?.getD c.terminal = _
  rw [getElem?_ahead]

theorem behind_indexed (c : Cursor) (k : Nat) :
    c.indexed.behind (k + 1) = c.behind[k]?.getD c.terminal := by
  unfold IndexCursor.behind
  show (if k + 1 ≤ c.position then c.lexemes[c.position - (k + 1)]?.getD c.terminal
    else c.terminal) = _
  split_ifs with h
  · rw [getElem?_behind c h]
  · rw [List.getElem?_eq_none (Nat.le_of_not_lt h)]
    rfl

theorem peek_indexed (c : Cursor) : c.indexed.peek = c.peek := by
  rw [peek_eq_getD, List.head?_eq_getElem?]
  exact lexemeAt_indexed c 0

theorem last_indexed (c : Cursor) : c.indexed.last = c.last := by
  rw [last_eq_turn, peek_eq_getD, List.head?_eq_getElem?]
  exact behind_indexed c 0

/-- Past one lexeme the second one ahead is seen. -/
theorem peek_skip (c : Cursor) : c.skip.peek = c.ahead[1]?.getD c.terminal := by
  obtain ⟨behind, ahead, terminal⟩ := c
  cases ahead with
  | nil => rfl
  | cons l ls => cases ls <;> rfl

/-- Back over one lexeme the second one behind is seen. -/
theorem last_back (c : Cursor) : c.back.last = c.behind[1]?.getD c.terminal := by
  obtain ⟨behind, ahead, terminal⟩ := c
  cases behind with
  | nil => rfl
  | cons l ls => cases ls <;> rfl

theorem length_lexemes (c : Cursor) : c.lexemes.length = c.position + c.ahead.length := by
  rw [lexemes, List.length_append, List.length_reverse]
  rfl

theorem hasNext_indexed (c : Cursor) : c.indexed.hasNext = c.hasNext := by
  show decide (c.position < c.lexemes.length) = !c.ahead.isEmpty
  rw [length_lexemes]
  cases c.ahead with
  | nil => simp
  | cons l ls => simp

theorem hasPrev_indexed (c : Cursor) : c.indexed.hasPrev = c.hasPrev := by
  show decide (0 < c.behind.length) = !c.behind.isEmpty
  cases c.behind with
  | nil => rfl
  | cons l ls => simp

/-! ## Moves -/

/-- Past a lexeme, the index is one more and in the list. -/
theorem up_indexed {l : Lexeme} {ls : List Lexeme} (h : c.ahead = l :: ls) :
    (c.indexed.up c.indexed.next).map (fun n => { c.indexed with next := n }) =
      some c.skip.indexed := by
  have hlt : c.position < c.lexemes.length := by
    rw [length_lexemes, h, List.length_cons]
    omega
  have hskip : c.skip.indexed = { c.indexed with next := c.position + 1 } := by
    rw [indexed, lexemes_skip, skip_of_ahead h]
    rfl
  rw [IndexCursor.up, show c.indexed.next = c.position from rfl,
    show c.indexed.lexemes = c.lexemes from rfl, if_pos hlt, hskip]
  rfl

/-- Back over a lexeme, the index is one less. -/
theorem down_indexed {l : Lexeme} {ls : List Lexeme} (h : c.behind = l :: ls) :
    (IndexCursor.down c.indexed.next).map (fun n => { c.indexed with next := n }) =
      some c.back.indexed := by
  have hnext : c.indexed.next = ls.length + 1 := by
    show c.behind.length = _
    rw [h]
    rfl
  have hback : c.back.indexed = { c.indexed with next := ls.length } := by
    rw [indexed, lexemes_back, back, h]
    rfl
  rw [hnext, hback]
  rfl

theorem skip?_indexed (c : Cursor) : c.indexed.skip? = some c.skip.indexed := by
  rw [IndexCursor.skip?, hasNext_indexed]
  cases h : c.ahead with
  | nil => simp [hasNext, skip, h]
  | cons l ls =>
    rw [if_pos (by simp [hasNext, h])]
    exact up_indexed h

theorem back?_indexed (c : Cursor) : c.indexed.back? = some c.back.indexed := by
  rw [IndexCursor.back?, hasPrev_indexed]
  cases h : c.behind with
  | nil => simp [hasPrev, back, h]
  | cons l ls =>
    rw [if_pos (by simp [hasPrev, h])]
    exact down_indexed h

/-- White space that is seen ahead is a lexeme of the list. -/
theorem ahead_of_isWhitespace (hc : c.terminal.text = []) (h : c.peek.isWhitespace = true) :
    ∃ l ls, c.ahead = l :: ls := by
  refine List.exists_cons_of_ne_nil fun hnil => ?_
  rw [peek, hnil, Lexeme.isWhitespace, hc] at h
  cases h

/-- White space that is seen behind is a lexeme of the list. -/
theorem behind_of_isWhitespace (hc : c.terminal.text = []) (h : c.last.isWhitespace = true) :
    ∃ l ls, c.behind = l :: ls :=
  ahead_of_isWhitespace (c := c.turn) hc h

theorem skipSpace?_indexed (hc : c.terminal.text = []) :
    c.indexed.skipSpace? = some c.skipSpace.indexed := by
  rw [IndexCursor.skipSpace?, peek_indexed, skipSpace]
  split_ifs with h
  · obtain ⟨l, ls, hahead⟩ := ahead_of_isWhitespace hc h
    exact up_indexed hahead
  · rfl

theorem backSpace?_indexed (hc : c.terminal.text = []) :
    c.indexed.backSpace? = some c.backSpace.indexed := by
  rw [IndexCursor.backSpace?, last_indexed, backSpace]
  split_ifs with h
  · obtain ⟨l, ls, hbehind⟩ := behind_of_isWhitespace hc h
    exact down_indexed hbehind
  · rfl

theorem skipWord?_indexed (hc : c.terminal.text = []) :
    c.indexed.skipWord? = some c.skipWord.indexed := by
  rw [IndexCursor.skipWord?, skipSpace?_indexed hc]
  exact skip?_indexed c.skipSpace

theorem peekWord?_indexed (hc : c.terminal.text = []) : c.indexed.peekWord? = some c.peekWord := by
  rw [IndexCursor.peekWord?, peek_indexed, peekWord, skipSpace]
  split_ifs with h
  · obtain ⟨l, ls, hahead⟩ := ahead_of_isWhitespace hc h
    have hlt : c.position < c.lexemes.length := by
      rw [length_lexemes, hahead, List.length_cons]
      omega
    -- the index after the white space may be the end of the list, where the terminal is seen
    rw [IndexCursor.up, show c.indexed.next = c.position from rfl,
      show c.indexed.lexemes = c.lexemes from rfl, if_pos hlt, Option.map_some, lexemeAt_indexed,
      peek_skip]
  · rfl

theorem lastWord_indexed (c : Cursor) : c.indexed.lastWord = c.lastWord := by
  rw [IndexCursor.lastWord, last_indexed, lastWord, backSpace]
  split_ifs
  · rw [behind_indexed, last_back]
  · rfl

theorem seek_indexed (c : Cursor) (n : Nat) : c.indexed.seek n = (c.seek n).indexed := by
  have hposition : (c.seek n).position = min n c.lexemes.length := by
    rw [seek, position, List.length_reverse, List.length_take]
  show (⟨c.lexemes, min n c.lexemes.length, c.terminal⟩ : IndexCursor) =
    ⟨(c.seek n).lexemes, (c.seek n).position, c.terminal⟩
  rw [lexemes_seek, hposition]

/-- A cursor over the same lexemes is brought back to a place by its index. -/
theorem Keeps.seek_position {c' : Cursor} (h : c.Keeps c') : c'.seek c.position = c := by
  have htake : c.lexemes.take c.position = c.behind.reverse :=
    List.take_left' (List.length_reverse ..)
  have hdrop : c.lexemes.drop c.position = c.ahead := List.drop_left' (List.length_reverse ..)
  rw [seek, h.lexemes, h.terminal, htake, hdrop, List.reverse_reverse]

/-! ## Operations -/

/-- What a cursor can be asked for. -/
inductive Op where
  | next | nextWord | prev | peek | peekWord | last | lastWord
  | skip | skipSpace | skipWord | back | backSpace | seek (n : Nat)
  | hasNext | hasPrev | atEnd | position | size

/-- The answer of an operation. -/
inductive Answer where
  | lexeme (l : Lexeme) | flag (b : Bool) | number (n : Nat) | moved

/-- The answer of an operation, and the cursor after it. -/
def perform (c : Cursor) : Op → Answer × Cursor
  | .next => (.lexeme c.peek, c.skip)
  | .nextWord => (.lexeme c.peekWord, c.skipWord)
  | .prev => (.lexeme c.last, c.back)
  | .peek => (.lexeme c.peek, c)
  | .peekWord => (.lexeme c.peekWord, c)
  | .last => (.lexeme c.last, c)
  | .lastWord => (.lexeme c.lastWord, c)
  | .skip => (.moved, c.skip)
  | .skipSpace => (.moved, c.skipSpace)
  | .skipWord => (.moved, c.skipWord)
  | .back => (.moved, c.back)
  | .backSpace => (.moved, c.backSpace)
  | .seek n => (.moved, c.seek n)
  | .hasNext => (.flag c.hasNext, c)
  | .hasPrev => (.flag c.hasPrev, c)
  | .atEnd => (.flag c.atEnd, c)
  | .position => (.number c.position, c)
  | .size => (.number c.size, c)

end Cursor

open Cursor in
/-- The answer of an operation, and the index after it; `none` when an index leaves the list. -/
def IndexCursor.perform? (i : IndexCursor) : Op → Option (Answer × IndexCursor)
  | .next => i.skip?.map fun j => (.lexeme i.peek, j)
  | .nextWord => do
    let j ← i.skipSpace?
    let k ← j.skip?
    return (.lexeme j.peek, k)
  | .prev => i.back?.map fun j => (.lexeme i.last, j)
  | .peek => some (.lexeme i.peek, i)
  | .peekWord => i.peekWord?.map fun l => (.lexeme l, i)
  | .last => some (.lexeme i.last, i)
  | .lastWord => some (.lexeme i.lastWord, i)
  | .skip => i.skip?.map fun j => (.moved, j)
  | .skipSpace => i.skipSpace?.map fun j => (.moved, j)
  | .skipWord => i.skipWord?.map fun j => (.moved, j)
  | .back => i.back?.map fun j => (.moved, j)
  | .backSpace => i.backSpace?.map fun j => (.moved, j)
  | .seek n => some (.moved, i.seek n)
  | .hasNext => some (.flag i.hasNext, i)
  | .hasPrev => some (.flag i.hasPrev, i)
  | .atEnd => i.peekWord?.map fun l => (.flag l.isTerminal, i)
  | .position => some (.number i.next, i)
  | .size => some (.number i.lexemes.length, i)

namespace Cursor

variable {c : Cursor}

/-- Every operation does on the index what it does on the cursor, and no index leaves the list. -/
theorem perform_indexed (hc : c.terminal.text = []) (op : Op) :
    c.indexed.perform? op = some ((c.perform op).1, (c.perform op).2.indexed) := by
  cases op with
  | next => rw [IndexCursor.perform?, skip?_indexed, peek_indexed]; rfl
  | nextWord =>
    rw [IndexCursor.perform?, skipSpace?_indexed hc]
    show (do
      let k ← c.skipSpace.indexed.skip?
      return (Answer.lexeme c.skipSpace.indexed.peek, k)) = _
    rw [skip?_indexed, peek_indexed]
    rfl
  | prev => rw [IndexCursor.perform?, back?_indexed, last_indexed]; rfl
  | peek => rw [IndexCursor.perform?, peek_indexed]; rfl
  | peekWord => rw [IndexCursor.perform?, peekWord?_indexed hc]; rfl
  | last => rw [IndexCursor.perform?, last_indexed]; rfl
  | lastWord => rw [IndexCursor.perform?, lastWord_indexed]; rfl
  | skip => rw [IndexCursor.perform?, skip?_indexed]; rfl
  | skipSpace => rw [IndexCursor.perform?, skipSpace?_indexed hc]; rfl
  | skipWord => rw [IndexCursor.perform?, skipWord?_indexed hc]; rfl
  | back => rw [IndexCursor.perform?, back?_indexed]; rfl
  | backSpace => rw [IndexCursor.perform?, backSpace?_indexed hc]; rfl
  | seek n => rw [IndexCursor.perform?, seek_indexed]; rfl
  | hasNext => rw [IndexCursor.perform?, hasNext_indexed]; rfl
  | hasPrev => rw [IndexCursor.perform?, hasPrev_indexed]; rfl
  | atEnd => rw [IndexCursor.perform?, peekWord?_indexed hc]; rfl
  | position => rfl
  | size =>
    rw [IndexCursor.perform?, show c.indexed.lexemes.length = c.size from length_lexemes c]
    rfl

-- White space beyond the ends would be passed, and the index would leave the list.
example : (IndexCursor.mk [] 0 (Lexeme.ofText ([' '] : Text))).perform? .skipSpace = none := by rfl

/-- An operation keeps the lexemes and what is seen beyond them. -/
theorem lexemes_perform (c : Cursor) (op : Op) : (c.perform op).2.lexemes = c.lexemes := by
  cases op <;> simp [perform]

theorem terminal_perform (c : Cursor) (op : Op) : (c.perform op).2.terminal = c.terminal := by
  have hskip := (keeps_skip c).terminal
  have hskipSpace := (keeps_skipSpace c).terminal
  have hskipWord := (keeps_skipWord c).terminal
  have hbackSpace := (keeps_backSpace c).terminal
  have hback : c.back.terminal = c.terminal := by
    unfold back
    split <;> rfl
  cases op with
  | next => exact hskip
  | nextWord => exact hskipWord
  | prev => exact hback
  | skip => exact hskip
  | skipSpace => exact hskipSpace
  | skipWord => exact hskipWord
  | back => exact hback
  | backSpace => exact hbackSpace
  | _ => rfl

end Cursor

end FlatExpr
