import FlatExpr.Proofs.Words

/-!
# Cursors over a source

A cursor over the lexemes of a source is tidy, wherever it stands (`Cursor.tidy_seek`), and every
move keeps it so. On a tidy cursor the moves act on the words ahead as on a list: white space is
passed without a trace (`wordsAhead_skipSpace`), what is seen past it is the first word
(`Tidy.text_peekWord`), and passing it leaves the others (`Tidy.passes_skipWord`).

`Passes` says that one cursor is reached from another by passing some lexemes that leave no literal
open. It composes, so what a rule passes is put together from what its parts pass.
-/

namespace FlatExpr.Cursor

variable {d : Dialect} {c c' c'' : Cursor} {ls ms : List Lexeme}

/-- The texts of the lexemes ahead. -/
def textsAhead (c : Cursor) : List Text := c.ahead.map Lexeme.text

/-- The words and gaps ahead. -/
def tokensAhead (c : Cursor) (d : Dialect) : List (Option Text) := tokens d c.textsAhead

/-- The words ahead. -/
def wordsAhead (c : Cursor) (d : Dialect) : List Text := words d c.textsAhead

/-- The words ahead are the tokens ahead without the gaps. -/
theorem reduceOption_tokensAhead (c : Cursor) (d : Dialect) :
    (c.tokensAhead d).reduceOption = c.wordsAhead d := rfl

/-! ## Tidy cursors -/

/-- The lexemes are as those of a source, and what is seen beyond them is empty. -/
structure Tidy (c : Cursor) : Prop where
  /-- The texts of the lexemes are tidy. -/
  lexemes : FlatExpr.Tidy (c.lexemes.map Lexeme.text)
  /-- The terminal is empty. -/
  terminal : c.terminal.text = []

/-- Nothing is seen beyond the ends of a list of lexemes. -/
theorem terminal_seek (lexemes : List Lexeme) (n : Nat) :
    ((ofLexemes lexemes).seek n).terminal.text = [] := by
  show (ofLexemes lexemes).terminal.text = []
  unfold ofLexemes
  dsimp only
  split <;> rfl

/-- A cursor over the lexemes of a source is tidy at each of its places. -/
theorem tidy_seek (source : Text) (n : Nat) : ((ofSource source).seek n).Tidy where
  lexemes := by
    rw [lexemes_seek]
    show FlatExpr.Tidy ((Lexeme.all source).map Lexeme.text)
    rw [Lexeme.map_text_all]
    exact Lexeme.tidy_texts source
  terminal := terminal_seek (Lexeme.all source) n

theorem tidy_ofSource (source : Text) : (ofSource source).Tidy := tidy_seek source 0

/-- The lexemes ahead are tidy. -/
theorem Tidy.ahead (h : c.Tidy) : FlatExpr.Tidy c.textsAhead := by
  have hall := h.lexemes
  rw [Cursor.lexemes, List.map_append] at hall
  exact hall.right

/-! ## Passing lexemes -/

/-- The cursor `c'` stands after the lexemes `ls` that `c` has ahead, and these leave no literal
open. -/
structure Passes (d : Dialect) (c : Cursor) (ls : List Lexeme) (c' : Cursor) : Prop where
  /-- The lexemes come first of those ahead. -/
  ahead : c.ahead = ls ++ c'.ahead
  /-- They are put behind. -/
  behind : c'.behind = ls.reverse ++ c.behind
  /-- What is seen beyond the ends stays. -/
  terminal : c'.terminal = c.terminal
  /-- Every literal among them is closed. -/
  closed : Closed d (ls.map Lexeme.text)

namespace Passes

theorem refl (d : Dialect) (c : Cursor) : Passes d c [] c := ⟨rfl, rfl, rfl, closed_nil d⟩

theorem trans (h : Passes d c ls c') (h' : Passes d c' ms c'') : Passes d c (ls ++ ms) c'' where
  ahead := by rw [h.ahead, h'.ahead, List.append_assoc]
  behind := by rw [h'.behind, h.behind, List.reverse_append, List.append_assoc]
  terminal := by rw [h'.terminal, h.terminal]
  closed := by rw [List.map_append]; exact h.closed.append h'.closed

/-- Passing lexemes keeps the list. -/
theorem lexemes_eq (h : Passes d c ls c') : c'.lexemes = c.lexemes := by
  unfold lexemes
  rw [h.ahead, h.behind, List.reverse_append, List.reverse_reverse, List.append_assoc]

/-- Passing lexemes keeps a cursor tidy. -/
theorem tidy (h : Passes d c ls c') (hc : c.Tidy) : c'.Tidy where
  lexemes := by rw [h.lexemes_eq]; exact hc.lexemes
  terminal := by rw [h.terminal]; exact hc.terminal

/-- The tokens ahead are those that are passed and those after them. -/
theorem tokensAhead_eq (h : Passes d c ls c') :
    c.tokensAhead d = tokens d (ls.map Lexeme.text) ++ c'.tokensAhead d := by
  unfold tokensAhead textsAhead
  rw [h.ahead, List.map_append, tokens_append h.closed]

/-- The words ahead are those that are passed and those after them. -/
theorem wordsAhead_eq (h : Passes d c ls c') :
    c.wordsAhead d = words d (ls.map Lexeme.text) ++ c'.wordsAhead d := by
  unfold wordsAhead textsAhead
  rw [h.ahead, List.map_append, words_append h.closed]

/-- Fewer lexemes are ahead after some were passed. -/
theorem length_lt (h : Passes d c ls c') (hne : ls ≠ []) : c'.ahead.length < c.ahead.length := by
  have hpos : 0 < ls.length := List.length_pos_of_ne_nil hne
  rw [h.ahead, List.length_append]
  omega

/-- Lexemes that are passed from a place in a source lead to a later place in it. -/
theorem eq_seek {source : Text} {p : Nat} (h : Passes d ((ofSource source).seek p) ls c')
    (hne : ls ≠ []) :
    c' = (ofSource source).seek (p + ls.length) ∧
      ((Lexeme.all source).take (p + ls.length)).drop p = ls ∧
      p + ls.length ≤ (Lexeme.all source).length := by
  have hlexemes : (ofSource source).lexemes = Lexeme.all source := rfl
  have hahead : (Lexeme.all source).drop p = ls ++ c'.ahead := h.ahead
  have hlength : (Lexeme.all source).length - p = ls.length + c'.ahead.length := by
    rw [← List.length_drop, hahead, List.length_append]
  have hpos : 0 < ls.length := List.length_pos_of_ne_nil hne
  have htake : (Lexeme.all source).take (p + ls.length) = (Lexeme.all source).take p ++ ls := by
    rw [List.take_add, hahead, List.take_left]
  refine ⟨?_, ?_, by omega⟩
  · have hbehind : c'.behind = ((Lexeme.all source).take (p + ls.length)).reverse := by
      rw [htake, List.reverse_append]
      exact h.behind
    have hrest : c'.ahead = (Lexeme.all source).drop (p + ls.length) := by
      rw [← List.drop_drop, hahead, List.drop_left]
    have hterminal : c'.terminal = (ofSource source).terminal := h.terminal
    unfold seek
    rw [hlexemes, ← hbehind, ← hrest, ← hterminal]
  · have hp : ((Lexeme.all source).take p).length = p := by
      rw [List.length_take]
      omega
    rw [htake]
    exact List.drop_left' hp

/-- The last lexeme that was passed is the one behind. -/
theorem last_eq (h : Passes d c (ls ++ [l]) c') : c'.last = l := by
  unfold last
  rw [h.behind]
  simp

/-- After some lexemes the one behind is white space exactly when their tokens end in a gap. -/
theorem isWhitespace_last_iff (h : Passes d c ls c') (hne : ls ≠ []) :
    c'.last.isWhitespace = true ↔ (tokens d (ls.map Lexeme.text)).getLast? = some none := by
  rcases List.eq_nil_or_concat ls with rfl | ⟨ls, l, rfl⟩
  · exact absurd rfl hne
  · rw [List.concat_eq_append] at h ⊢
    have hclosed := h.closed
    rw [List.map_append, List.map_singleton] at hclosed ⊢
    rw [h.last_eq, getLast?_tokens_concat hclosed]
    rfl

end Passes

/-! ## White space -/

/-- The lexeme ahead, if there is one, is the next one. -/
theorem peek_of_ahead {l : Lexeme} (h : c.ahead = l :: ls) : c.peek = l := by
  unfold peek
  rw [h]

theorem skip_of_ahead {l : Lexeme} (h : c.ahead = l :: ls) :
    c.skip = { c with behind := l :: c.behind, ahead := ls } := by
  unfold skip
  rw [h]

/-- Where the next lexeme is not white space, none is passed. -/
theorem skipSpace_of_settled (h : c.peek.isWhitespace = false) : c.skipSpace = c := by
  unfold skipSpace
  rw [h]
  rfl

/-- White space is passed as a gap. -/
theorem passes_skipSpace (d : Dialect) (c : Cursor) (hc : c.Tidy) :
    ∃ ls, Passes d c ls c.skipSpace ∧ words d (ls.map Lexeme.text) = [] := by
  by_cases h : c.peek.isWhitespace = true
  · cases hahead : c.ahead with
    | nil =>
      have hpeek : c.peek = c.terminal := by unfold peek; rw [hahead]
      rw [hpeek, Lexeme.isWhitespace_eq, hc.terminal] at h
      cases h
    | cons l ls =>
      rw [peek_of_ahead hahead, Lexeme.isWhitespace_eq] at h
      have hskip : c.skipSpace = { c with behind := l :: c.behind, ahead := ls } := by
        unfold skipSpace
        rw [if_pos (by rw [peek_of_ahead hahead]; exact h), skip_of_ahead hahead]
      refine ⟨[l], ⟨?_, ?_, ?_, closed_singleton (spelled?_quote_of_isBlank h)⟩, ?_⟩
      · rw [hskip, hahead]; rfl
      · rw [hskip]; rfl
      · rw [hskip]
      · rw [List.map_singleton, words_cons_blank h, words_nil]
  · rw [skipSpace_of_settled (by simpa using h)]
    exact ⟨[], .refl d c, rfl⟩

/-- Passing white space leaves the words ahead. -/
theorem wordsAhead_skipSpace (hc : c.Tidy) : c.skipSpace.wordsAhead d = c.wordsAhead d := by
  obtain ⟨ls, hpass, hwords⟩ := passes_skipSpace d c hc
  rw [hpass.wordsAhead_eq, hwords, List.nil_append]

theorem Tidy.skipSpace (hc : c.Tidy) : c.skipSpace.Tidy := by
  obtain ⟨ls, hpass, -⟩ := passes_skipSpace Dialect.full c hc
  exact hpass.tidy hc

/-- What comes after white space is not white space. -/
theorem Tidy.settled_skipSpace (hc : c.Tidy) : c.skipSpace.peek.isWhitespace = false := by
  by_cases h : c.peek.isWhitespace = true
  · -- two blank lexemes are never neighbours
    have hterminal : c.terminal.isWhitespace = false := by
      rw [Lexeme.isWhitespace_eq, hc.terminal]; rfl
    have hskip : c.skipSpace = c.skip := by unfold Cursor.skipSpace; rw [if_pos h]
    rw [hskip]
    cases hahead : c.ahead with
    | nil =>
      have hpeek : c.skip.peek = c.terminal := by simp [skip, peek, hahead]
      rw [hpeek]
      exact hterminal
    | cons l ls =>
      rw [skip_of_ahead hahead]
      cases ls with
      | nil => exact hterminal
      | cons m ls =>
        have htidy := hc.ahead
        rw [textsAhead, hahead] at htidy
        rw [peek_of_ahead hahead] at h
        exact htidy.isBlank_second h
  · have h : c.peek.isWhitespace = false := by simpa using h
    rw [skipSpace_of_settled h]
    exact h

/-! ## Words -/

/-- Where the next lexeme is not white space, its text is the first word ahead. -/
theorem Tidy.text_peek (hc : c.Tidy) (h : c.peek.isWhitespace = false) :
    c.peek.text = (c.wordsAhead d).headD [] := by
  unfold wordsAhead textsAhead
  cases hahead : c.ahead with
  | nil =>
    have hpeek : c.peek = c.terminal := by unfold peek; rw [hahead]
    rw [hpeek, hc.terminal]
    rfl
  | cons l ls =>
    rw [peek_of_ahead hahead, Lexeme.isWhitespace_eq] at h
    obtain ⟨ws, hws⟩ := words_cons_head (d := d) h (ls.map Lexeme.text)
    rw [peek_of_ahead hahead, List.map_cons, hws]
    rfl

/-- Past white space the first word ahead is seen. -/
theorem Tidy.text_peekWord (hc : c.Tidy) : c.peekWord.text = (c.wordsAhead d).headD [] := by
  unfold peekWord
  rw [hc.skipSpace.text_peek hc.settled_skipSpace, wordsAhead_skipSpace hc]

/-- The next lexeme past white space is a terminal exactly when there are no words ahead. -/
theorem Tidy.isTerminal_peekWord_iff (hc : c.Tidy) (d : Dialect) :
    c.peekWord.isTerminal = true ↔ c.wordsAhead d = [] := by
  have hsettled := hc.settled_skipSpace
  rw [← wordsAhead_skipSpace hc, Lexeme.isTerminal, List.isEmpty_iff]
  unfold peekWord wordsAhead textsAhead
  cases hahead : c.skipSpace.ahead with
  | nil =>
    have hpeek : c.skipSpace.peek = c.skipSpace.terminal := by unfold peek; rw [hahead]
    rw [hpeek, hc.skipSpace.terminal]
    exact ⟨fun _ => rfl, fun _ => rfl⟩
  | cons l ls =>
    rw [peek_of_ahead hahead, Lexeme.isWhitespace_eq] at hsettled
    obtain ⟨ws, hws⟩ := words_cons_head (d := d) hsettled (ls.map Lexeme.text)
    have hne : l.text ≠ [] := hc.skipSpace.ahead.nonempty _ (by simp [textsAhead, hahead])
    rw [peek_of_ahead hahead, List.map_cons, hws]
    exact ⟨fun h => absurd h hne, fun h => absurd h (List.cons_ne_nil _ _)⟩

/-- The lexemes ahead start with the first word ahead, after white space if there is some. -/
theorem Tidy.ahead_skipSpace {t : Text} {ws : List Text} (hc : c.Tidy)
    (h : c.wordsAhead d = t :: ws) : ∃ l ls, c.skipSpace.ahead = l :: ls ∧ l.text = t := by
  have htext := hc.text_peekWord (d := d)
  rw [h] at htext
  have hterminal : ¬ c.peekWord.isTerminal = true := by
    rw [hc.isTerminal_peekWord_iff d, h]
    exact List.cons_ne_nil t ws
  cases hahead : c.skipSpace.ahead with
  | nil =>
    have hpeek : c.peekWord = c.skipSpace.terminal := by unfold peekWord peek; rw [hahead]
    rw [hpeek, Lexeme.isTerminal, hc.skipSpace.terminal] at hterminal
    exact absurd rfl hterminal
  | cons l ls =>
    refine ⟨l, ls, rfl, ?_⟩
    rw [peekWord, peek_of_ahead hahead] at htext
    exact htext

/-- A lexeme that is seen past white space, and is no terminal, is the first word ahead. -/
theorem Tidy.wordsAhead_of_text_peekWord {t : Text} (hc : c.Tidy) (h : c.peekWord.text = t)
    (hne : t ≠ []) : ∃ ws, c.wordsAhead d = t :: ws := by
  have hterminal : ¬ c.peekWord.isTerminal = true := by
    rw [Lexeme.isTerminal, List.isEmpty_iff, h]
    exact hne
  rw [hc.isTerminal_peekWord_iff d] at hterminal
  rw [hc.text_peekWord (d := d)] at h
  obtain ⟨t', ws, hws⟩ := List.exists_cons_of_ne_nil hterminal
  rw [hws] at h
  exact ⟨ws, by rw [hws, ← h]; rfl⟩

/-- Passing the first word, if it is no quotation mark, leaves the others. -/
theorem Tidy.passes_skipWord {t : Text} {ws : List Text} (hc : c.Tidy)
    (h : c.wordsAhead d = t :: ws) (hq : d.quotes.spelled? t = none) :
    ∃ ls, ls ≠ [] ∧ Passes d c ls c.skipWord ∧ c.skipWord.wordsAhead d = ws := by
  obtain ⟨ls, hpass, -⟩ := passes_skipSpace d c hc
  obtain ⟨l, ms, hahead, rfl⟩ := hc.ahead_skipSpace h
  have hblank := hc.settled_skipSpace
  rw [peek_of_ahead hahead, Lexeme.isWhitespace_eq] at hblank
  have hskip : Passes d c.skipSpace [l] c.skipWord := by
    unfold skipWord
    rw [skip_of_ahead hahead]
    exact ⟨hahead, rfl, rfl, closed_singleton hq⟩
  refine ⟨ls ++ [l], by simp, hpass.trans hskip, ?_⟩
  have hwords := hskip.wordsAhead_eq
  rw [wordsAhead_skipSpace hc, h, List.map_singleton, words_cons_word hblank hq,
    words_nil] at hwords
  exact (List.cons.inj hwords).2.symm

end FlatExpr.Cursor
