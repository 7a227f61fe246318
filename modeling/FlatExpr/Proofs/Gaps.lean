import Mathlib.Data.List.TakeWhile
import FlatExpr.Proofs.Location
import FlatExpr.Proofs.Operations

/-!
# Passing white space

The moves that pass white space pass one lexeme of it at most. Over a source that is all there is:
blanks are never cut, so no two lexemes of white space are neighbours, and passing one of them is
passing all of them (`Tidy.ahead_skipSpace_eq`). What is seen past the white space is then the
nearest lexeme of another kind, and nothing but white space is left where none is seen.

Looking back is looking ahead on the cursor that is turned around (`Cursor.turn`), so that all of
this is proved in one direction only.
-/

namespace FlatExpr

namespace Cursor

variable {c : Cursor}

/-! ## Looking ahead -/

/-- The next lexeme is the first one ahead, or the terminal. -/
theorem peek_eq_getD (c : Cursor) : c.peek = c.ahead.head?.getD c.terminal := by
  unfold peek
  split
  · next h => rw [h]; rfl
  · next h => rw [h]; rfl

/-- On a tidy cursor passing one lexeme of white space is passing all of them. -/
theorem Tidy.ahead_skipSpace_eq (hc : c.Tidy) :
    c.skipSpace.ahead = c.ahead.dropWhile Lexeme.isWhitespace := by
  have hsettled := hc.settled_skipSpace
  cases hahead : c.ahead with
  | nil =>
    have hpeek : c.peek.isWhitespace = false := by
      rw [peek_eq_getD, hahead, Lexeme.isWhitespace_eq]
      show Text.isBlank c.terminal.text = false
      rw [hc.terminal]
      rfl
    rw [skipSpace_of_settled hpeek, hahead, List.dropWhile_nil]
  | cons l ls =>
    cases hl : l.isWhitespace with
    | false =>
      rw [skipSpace_of_settled (by rw [peek_of_ahead hahead]; exact hl), hahead,
        List.dropWhile_cons_of_neg (by simp [hl])]
    | true =>
      -- what comes next is not white space, so that no more is dropped
      have hskip : c.skipSpace = { c with behind := l :: c.behind, ahead := ls } := by
        unfold Cursor.skipSpace
        rw [if_pos (by rw [peek_of_ahead hahead]; exact hl), skip_of_ahead hahead]
      rw [hskip] at hsettled ⊢
      rw [List.dropWhile_cons_of_pos hl]
      cases ls with
      | nil => rfl
      | cons m ls =>
        have hm : m.isWhitespace = false := hsettled
        rw [List.dropWhile_cons_of_neg (by simp [hm])]

/-- On a tidy cursor the lexeme that is seen past white space is the first one ahead that is not
white space. -/
theorem Tidy.peekWord_eq (hc : c.Tidy) :
    c.peekWord = (c.ahead.filter fun l => !l.isWhitespace).head?.getD c.terminal := by
  have hterminal : c.skipSpace.terminal = c.terminal := (keeps_skipSpace c).terminal
  rw [peekWord, peek_eq_getD, hc.ahead_skipSpace_eq, hterminal,
    ← List.find?_not_eq_head?_dropWhile, List.head?_filter]

/-- On a tidy cursor no word is seen exactly when all that is ahead is white space. -/
theorem Tidy.atEnd_iff (hc : c.Tidy) :
    c.atEnd = true ↔ ∀ l ∈ c.ahead, l.isWhitespace = true := by
  rw [atEnd, hc.peekWord_eq, Lexeme.isTerminal, List.isEmpty_iff, List.head?_filter]
  cases hfind : c.ahead.find? fun l => !l.isWhitespace with
  | none =>
    have hall : ∀ l ∈ c.ahead, l.isWhitespace = true := by simpa using hfind
    exact iff_of_true hc.terminal hall
  | some l =>
    have hmem : l ∈ c.ahead := List.mem_of_find?_eq_some hfind
    have hword : l.isWhitespace = false := by simpa using List.find?_some hfind
    have hne : l.text ≠ [] := hc.ahead.nonempty _ (List.mem_map_of_mem hmem)
    refine iff_of_false hne fun hall => ?_
    rw [hall l hmem] at hword
    cases hword

/-! ## Looking back -/

/-- The cursor in the list that is read backwards. -/
def turn (c : Cursor) : Cursor := { c with behind := c.ahead, ahead := c.behind }

theorem Tidy.turn (hc : c.Tidy) : c.turn.Tidy where
  lexemes := by
    have hlexemes : c.turn.lexemes = c.lexemes.reverse := by simp [Cursor.turn, Cursor.lexemes]
    rw [hlexemes, List.map_reverse]
    exact {
      nonempty := fun t ht => hc.lexemes.nonempty t (List.mem_reverse.1 ht)
      gaps := List.isChain_reverse.2 (hc.lexemes.gaps.imp fun _ _ => Or.symm)
      quotes := fun t ht => hc.lexemes.quotes t (List.mem_reverse.1 ht) }
  terminal := hc.terminal

theorem last_eq_turn (c : Cursor) : c.last = c.turn.peek := rfl

theorem backSpace_eq_turn (c : Cursor) : c.backSpace = c.turn.skipSpace.turn := by
  have hback : c.back = c.turn.skip.turn := by
    obtain ⟨behind, ahead, terminal⟩ := c
    cases behind <;> rfl
  unfold backSpace skipSpace
  rw [last_eq_turn, hback]
  split <;> rfl

theorem lastWord_eq_turn (c : Cursor) : c.lastWord = c.turn.peekWord := by
  rw [lastWord, backSpace_eq_turn]
  rfl

/-! ## Every place in a source -/

/-- What is seen of the source from the place after `n` lexemes, and where white space is passed.
Beyond the ends of the source stands the terminal at its end. -/
structure SeesPastGaps (source : Text) (n : Nat) (c : Cursor) : Prop where
  /-- Ahead, the first lexeme from there on that is not white space is seen. -/
  ahead : c.peekWord = (((Lexeme.all source).drop n).filter fun l => !l.isWhitespace).head?.getD
    (.endOf source)
  /-- Behind, the last lexeme before that is not white space is seen. -/
  behind : c.lastWord = (((Lexeme.all source).take n).filter fun l => !l.isWhitespace).getLast?.getD
    (.endOf source)
  /-- All white space that comes next is passed, and nothing else. -/
  passed : c.skipSpace.peek.isWhitespace = false ∧
    c.skipSpace.ahead = ((Lexeme.all source).drop n).dropWhile Lexeme.isWhitespace
  /-- All white space that comes before is passed backwards, and nothing else. -/
  returned : c.backSpace.last.isWhitespace = false ∧
    c.backSpace.behind = ((Lexeme.all source).take n).reverse.dropWhile Lexeme.isWhitespace
  /-- The end is reached where nothing but white space is left. -/
  ended : c.atEnd = true ↔ ∀ l ∈ (Lexeme.all source).drop n, l.isWhitespace = true
  /-- And there, under every grammar, nothing is left over. -/
  checked : ∀ g : Grammar, g.checkEnd c = .ok () ↔
    ∀ l ∈ (Lexeme.all source).drop n, l.isWhitespace = true

/-- Passing one lexeme of white space is passing all of it, at every place in every source. -/
theorem seek_seesPastGaps (source : Text) (n : Nat) :
    SeesPastGaps source n ((ofSource source).seek n) := by
  have hc := tidy_seek source n
  have hahead : ((ofSource source).seek n).ahead = (Lexeme.all source).drop n := rfl
  have hbehind : ((ofSource source).seek n).behind = ((Lexeme.all source).take n).reverse := rfl
  have hterminal : ((ofSource source).seek n).terminal = .endOf source :=
    Lexeme.terminal_ofSource source
  generalize (ofSource source).seek n = c at hc hahead hbehind hterminal
  refine ⟨?_, ?_, ⟨hc.settled_skipSpace, ?_⟩, ⟨?_, ?_⟩, ?_, fun g => ?_⟩
  · rw [hc.peekWord_eq, hahead, hterminal]
  · rw [lastWord_eq_turn, hc.turn.peekWord_eq]
    show (List.filter _ c.behind).head?.getD c.terminal = _
    rw [hbehind, hterminal, List.filter_reverse, List.head?_reverse]
  · rw [hc.ahead_skipSpace_eq, hahead]
  · rw [backSpace_eq_turn]
    exact hc.turn.settled_skipSpace
  · rw [backSpace_eq_turn]
    show c.turn.skipSpace.ahead = _
    rw [hc.turn.ahead_skipSpace_eq, ← hbehind]
    rfl
  · rw [hc.atEnd_iff, hahead]
  · rw [Grammar.checkEnd_eq_ok_iff hc, ← hc.isTerminal_peekWord_iff, ← hahead, ← hc.atEnd_iff]
    rfl

end Cursor

end FlatExpr
