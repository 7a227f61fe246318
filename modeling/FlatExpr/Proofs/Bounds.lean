import FlatExpr.Proofs.IndexRules

/-!
# Sessions stay in bounds

A session asks a cursor and calls rules over it, in any order, and goes on after failures
(`Grammar.takeAll`). Two things are kept by one step of it, and so by all of them: the cursor is a
place in the list that it was made from (`Cursor.PlaceIn`), and the step does the same with an
index, which does not leave the list (`Grammar.take_indexed`). What is seen from a place in a list
is said once, for all places (`Cursor.InBounds`).
-/

namespace FlatExpr

/-! ## Places in a list -/

namespace Cursor

variable {lexemes : List Lexeme} {c : Cursor}

/-- The lexeme at a number, which may lie outside the list: the terminal stands there. -/
def lexemeOr (terminal : Lexeme) (lexemes : List Lexeme) (n : Int) : Lexeme :=
  if 0 ≤ n then lexemes[n.toNat]?.getD terminal else terminal

/-- The cursor is a place in the list, with the terminal that belongs to the list. -/
structure PlaceIn (lexemes : List Lexeme) (c : Cursor) : Prop where
  lexemes_eq : c.lexemes = lexemes
  terminal_eq : c.terminal = (ofLexemes lexemes).terminal

/-- What holds of a cursor at every place in the list. -/
structure InBounds (lexemes : List Lexeme) (c : Cursor) : Prop where
  /-- The list is the one the cursor was made from. -/
  lexemes_eq : c.lexemes = lexemes
  /-- The place is in the list or at its end. -/
  position_le : c.position ≤ lexemes.length
  /-- The terminal is the one after the list, and is a terminal. -/
  terminal : c.terminal = (ofLexemes lexemes).terminal ∧ c.terminal.isTerminal = true
  /-- There is a next lexeme before the end. -/
  hasNext_iff : c.hasNext = true ↔ c.position < lexemes.length
  /-- There is a lexeme behind after the start. -/
  hasPrev_iff : c.hasPrev = true ↔ 0 < c.position
  /-- Ahead, the lexeme at the place is seen, or the terminal beyond the end. -/
  peek : c.peek = lexemeOr c.terminal lexemes c.position
  /-- And past white space the lexeme after it, or the terminal beyond the end. -/
  peekWord : c.peekWord =
    if c.peek.isWhitespace then lexemeOr c.terminal lexemes (c.position + 1) else c.peek
  /-- Behind, the lexeme before the place is seen, or the terminal before the start. -/
  last : c.last = lexemeOr c.terminal lexemes (c.position - 1)
  /-- And past white space the lexeme before it, or the terminal before the start. -/
  lastWord : c.lastWord =
    if c.last.isWhitespace then lexemeOr c.terminal lexemes (c.position - 2) else c.last
  /-- A lexeme that is passed is seen again on the way back, which ends where it began. -/
  returns : c.hasNext = true → (c.perform .next).2.perform .prev = ((c.perform .next).1, c)

theorem placeIn_ofLexemes (lexemes : List Lexeme) : (ofLexemes lexemes).PlaceIn lexemes :=
  ⟨rfl, rfl⟩

theorem lexemeOr_ahead (c : Cursor) (k : Nat) :
    lexemeOr c.terminal c.lexemes (c.position + k) = c.ahead[k]?.getD c.terminal := by
  rw [← getElem?_ahead]
  exact if_pos (Int.natCast_nonneg (c.position + k))

theorem lexemeOr_behind (c : Cursor) (k : Nat) :
    lexemeOr c.terminal c.lexemes (c.position - (k + 1 : Nat)) = c.behind[k]?.getD c.terminal := by
  unfold lexemeOr
  split_ifs with h
  · have hk : k < c.position := by omega
    -- the difference of numbers is one of indices, since it does not go below the start
    rw [← getElem?_behind c hk, show (c.position - (k + 1 : Nat) : Int).toNat = c.position - (k + 1)
      from by omega]
  · have hk : c.behind.length ≤ k := by
      show c.position ≤ k
      omega
    rw [List.getElem?_eq_none hk]
    rfl

theorem hasNext_iff (c : Cursor) : c.hasNext = true ↔ c.position < c.lexemes.length := by
  rw [← hasNext_indexed]
  exact decide_eq_true_iff

theorem hasPrev_iff (c : Cursor) : c.hasPrev = true ↔ 0 < c.position := by
  rw [← hasPrev_indexed]
  exact decide_eq_true_iff

theorem peek_eq_lexemeOr (c : Cursor) : c.peek = lexemeOr c.terminal c.lexemes c.position := by
  rw [peek_eq_getD, List.head?_eq_getElem?]
  exact (lexemeOr_ahead c 0).symm

theorem peekWord_eq_lexemeOr (c : Cursor) : c.peekWord =
    if c.peek.isWhitespace then lexemeOr c.terminal c.lexemes (c.position + 1) else c.peek := by
  unfold peekWord skipSpace
  split_ifs
  · rw [peek_skip]
    exact (lexemeOr_ahead c 1).symm
  · rfl

theorem last_eq_lexemeOr (c : Cursor) :
    c.last = lexemeOr c.terminal c.lexemes (c.position - 1) := by
  rw [last_eq_turn, peek_eq_getD, List.head?_eq_getElem?]
  exact (lexemeOr_behind c 0).symm

theorem lastWord_eq_lexemeOr (c : Cursor) : c.lastWord =
    if c.last.isWhitespace then lexemeOr c.terminal c.lexemes (c.position - 2) else c.last := by
  unfold lastWord backSpace
  split_ifs
  · rw [last_back]
    exact (lexemeOr_behind c 1).symm
  · rfl

/-- The way over a lexeme and back. -/
theorem prev_next (h : c.hasNext = true) :
    (c.perform .next).2.perform .prev = ((c.perform .next).1, c) := by
  obtain ⟨behind, ahead, terminal⟩ := c
  cases ahead with
  | nil => cases h
  | cons l ls => rfl

namespace PlaceIn

theorem text_terminal (h : c.PlaceIn lexemes) : c.terminal.text = [] := by
  rw [h.terminal_eq]
  exact terminal_seek lexemes 0

theorem inBounds (h : c.PlaceIn lexemes) : c.InBounds lexemes := by
  have hterminal : c.terminal.isTerminal = true := by
    rw [Lexeme.isTerminal, h.text_terminal]
    rfl
  obtain ⟨rfl, heq⟩ := h
  have hposition : c.position ≤ c.lexemes.length := by
    rw [length_lexemes]
    omega
  exact ⟨rfl, hposition, ⟨heq, hterminal⟩, hasNext_iff c, hasPrev_iff c, peek_eq_lexemeOr c,
    peekWord_eq_lexemeOr c, last_eq_lexemeOr c, lastWord_eq_lexemeOr c, prev_next⟩

end PlaceIn

end Cursor

/-! ## Sessions -/

namespace Grammar

open Rule

open Cursor (Op Answer perform)

variable {lexemes : List Lexeme}

namespace Indexed

/-- A step with an index; it has no result when an index leaves the list. -/
def take? (g : Grammar) : Step Op → IndexState → Option (Outcome Answer × IndexState)
  | .ask op, s => (s.cursor.perform? op).map fun x => (.answer x.1, { s with cursor := x.2 })
  | .call m, s => (call g m s).map fun x => (.read x.1, x.2)
  | .checkEnd, s => (checkEnd g s).map fun x => (.checked x.1, x.2)

/-- A session with an index; it has no result when an index leaves the list in some step. -/
def takeAll? (g : Grammar) :
    List (Step Op) → IndexState → Option (List (Outcome Answer) × IndexState)
  | [], s => some ([], s)
  | step :: steps, s => do
    let (outcome, t) ← take? g step s
    let (outcomes, u) ← takeAll? g steps t
    return (outcome :: outcomes, u)

end Indexed

/-- Rules stay in the list, whether they answer or fail. -/
theorem contract_placeIn (lexemes : List Lexeme) (limit : Nat) :
    Contract limit fun s _ t => s.cursor.PlaceIn lexemes → t.cursor.PlaceIn lexemes where
  trans hst htu hs := htu (hst hs)
  move h hs := ⟨h.lexemes.trans hs.lexemes_eq, h.terminal.trans hs.terminal_eq⟩
  fail _ hs := hs
  nest h hs := h hs
  refuse _ hs := hs

/-- A step stays in the list. -/
theorem placeIn_take (g : Grammar) (step : Step Op) {s : ReadState}
    (hs : s.cursor.PlaceIn lexemes) : (g.take perform step s).2.cursor.PlaceIn lexemes := by
  cases step with
  | ask op =>
    exact ⟨(Cursor.lexemes_perform s.cursor op).trans hs.lexemes_eq,
      (Cursor.terminal_perform s.cursor op).trans hs.terminal_eq⟩
  | call m => exact obeys_call (contract_placeIn lexemes g.maxDepth) m s hs
  | checkEnd => exact hs

/-- A step does the same with an index, which does not leave the list. -/
theorem take_indexed (g : Grammar) (step : Step Op) {s : ReadState}
    (hs : s.cursor.PlaceIn lexemes) :
    Indexed.take? g step s.indexed =
      some ((g.take perform step s).1, (g.take perform step s).2.indexed) := by
  cases step with
  | ask op =>
    show (s.cursor.indexed.perform? op).map _ = _
    rw [Cursor.perform_indexed hs.text_terminal]
    rfl
  | call m =>
    rw [Indexed.take?, (refines_call m s hs.text_terminal).1]
    rfl
  | checkEnd =>
    rw [Indexed.take?, (refines_checkEnd s hs.text_terminal).1]
    rfl

/-- A session stays in the list. -/
theorem placeIn_takeAll (g : Grammar) (steps : List (Step Op)) {s : ReadState}
    (hs : s.cursor.PlaceIn lexemes) : (g.takeAll perform steps s).2.cursor.PlaceIn lexemes := by
  induction steps generalizing s with
  | nil => exact hs
  | cons step steps ih => exact ih (placeIn_take g step hs)

/-- A session does the same with an index, which does not leave the list in any step. -/
theorem takeAll_indexed (g : Grammar) (steps : List (Step Op)) {s : ReadState}
    (hs : s.cursor.PlaceIn lexemes) :
    Indexed.takeAll? g steps s.indexed =
      some ((g.takeAll perform steps s).1, (g.takeAll perform steps s).2.indexed) := by
  induction steps generalizing s with
  | nil => rfl
  | cons step steps ih =>
    have hfirst := take_indexed g step hs
    have hlater := ih (placeIn_take g step hs)
    -- the first step passes its checks, and leaves a state where the others pass theirs
    rw [Indexed.takeAll?, hfirst, Option.bind_eq_bind, Option.bind_some]
    dsimp only
    rw [hlater]
    rfl

/-- Over any list of lexemes and in any session, no index leaves the list, neither between the steps
nor inside of a rule, whether it answers or fails; and after the session the cursor is at a place in
the same list, with everything beyond its ends seen as the terminal. -/
theorem session_inBounds (g : Grammar) (lexemes : List Lexeme) (steps : List (Step Cursor.Op)) :
    Indexed.takeAll? g steps ⟨(Cursor.ofLexemes lexemes).indexed, 0⟩ =
        some ((g.takeAll Cursor.perform steps ⟨Cursor.ofLexemes lexemes, 0⟩).1,
          (g.takeAll Cursor.perform steps ⟨Cursor.ofLexemes lexemes, 0⟩).2.indexed) ∧
      (g.takeAll Cursor.perform steps ⟨Cursor.ofLexemes lexemes, 0⟩).2.cursor.InBounds lexemes := by
  have hstart := Cursor.placeIn_ofLexemes lexemes
  refine ⟨?_, ?_⟩
  · exact takeAll_indexed g steps (s := ⟨Cursor.ofLexemes lexemes, 0⟩) hstart
  · exact (placeIn_takeAll g steps (s := ⟨Cursor.ofLexemes lexemes, 0⟩) hstart).inBounds

end Grammar

end FlatExpr
