import FlatExpr.Proofs.Cursor
import FlatExpr.Proofs.Phrases

/-!
# Rules and phrases

What it means that a rule of the grammar reads a kind of phrase (`Rule.Reads`): from every tidy
cursor the rule succeeds exactly when the words ahead start with such a phrase, its answer is the
value of the phrase, and it leaves the cursor at the next word after the phrase. All this happens at
a given depth of nesting, to which a successful rule returns.

The first part inverts the primitive rules and their composition; the second says what the single
words are that the grammar looks at and passes.
-/

namespace FlatExpr

/-! ## Successful runs of rules -/

namespace Rule

variable {α β : Type} {s s' : ReadState}

/-- A composition succeeds when both parts do. -/
theorem bind_eq_ok_iff {r : Rule α} {f : α → Rule β} {b : β} :
    (r >>= f) s = (.ok b, s') ↔ ∃ a t, r s = (.ok a, t) ∧ f a t = (.ok b, s') := by
  rw [bind_apply]
  rcases hr : r s with ⟨_ | a, t⟩
  · constructor
    · intro h; cases h
    · rintro ⟨a, t', h, -⟩; cases h
  · constructor
    · intro h; exact ⟨a, t, rfl, h⟩
    · rintro ⟨a', t', h, hf⟩; cases h; exact hf

theorem pure_eq_ok_iff {a b : α} :
    (pure a : Rule α) s = (.ok b, s') ↔ a = b ∧ s = s' := by
  show ((.ok a, s) : Except ParseError α × ReadState) = (.ok b, s') ↔ _
  rw [Prod.mk.injEq, Except.ok.injEq]

theorem fail_eq_ok_iff {e : ParseError} {b : α} : (fail e : Rule α) s = (.ok b, s') ↔ False := by
  show ((.error e, s) : Except ParseError α × ReadState) = (.ok b, s') ↔ _
  simp

theorem look_eq_ok_iff {f : Cursor → α} {a : α} :
    look f s = (.ok a, s') ↔ f s.cursor = a ∧ s = s' := by
  unfold look
  rw [Prod.mk.injEq, Except.ok.injEq]

theorem move_eq_ok_iff {f : Cursor → Cursor} {u : Unit} :
    move f s = (.ok u, s') ↔ { s with cursor := f s.cursor } = s' := by
  unfold move
  rw [Prod.mk.injEq]
  exact and_iff_right rfl

theorem next_eq_ok_iff {l : Lexeme} :
    next s = (.ok l, s') ↔
      s.cursor.peekWord = l ∧ { s with cursor := s.cursor.skipWord } = s' := by
  unfold next
  rw [Prod.mk.injEq, Except.ok.injEq]

/-- After a successful rule, the answer is that of the rules that depend on it. -/
theorem bind_of_ok {r : Rule α} {f : α → Rule β} {a : α} (h : r s = (.ok a, s')) :
    (r >>= f) s = f a s' := by
  rw [bind_apply, h]

/-- Where a rule fails, no further rule is run. -/
theorem fst_bind_of_error {r : Rule α} {f : α → Rule β} {e : ParseError}
    (h : (r s).1 = .error e) : ((r >>= f) s).1 = .error e := by
  rw [bind_apply]
  rcases hr : r s with ⟨answer, t⟩
  rw [hr] at h
  obtain rfl : answer = .error e := h
  rfl

end Rule

/-! ## Rules that read phrases -/

/-- A state after a successful rule: the nesting is as before, some lexemes were passed, and the
cursor does not stand before white space. -/
structure ReadState.Reaches (d : Dialect) (s s' : ReadState) : Prop where
  /-- Every level that was entered has been left. -/
  depth : s'.depth = s.depth
  /-- Some lexemes were passed, and with them whole literals. -/
  passes : ∃ ls, ls ≠ [] ∧ Cursor.Passes d s.cursor ls s'.cursor
  /-- White space after the phrase has been passed too. -/
  settled : s'.cursor.peek.isWhitespace = false

namespace ReadState.Reaches

variable {d : Dialect} {s s' s'' : ReadState}

theorem tidy (h : s.Reaches d s') (hs : s.cursor.Tidy) : s'.cursor.Tidy := by
  obtain ⟨ls, -, hpass⟩ := h.passes
  exact hpass.tidy hs

theorem length_lt (h : s.Reaches d s') : s'.cursor.ahead.length < s.cursor.ahead.length := by
  obtain ⟨ls, hne, hpass⟩ := h.passes
  exact hpass.length_lt hne

theorem trans (h : s.Reaches d s') (h' : s'.Reaches d s'') : s.Reaches d s'' where
  depth := by rw [h'.depth, h.depth]
  passes := by
    obtain ⟨ls, hne, hpass⟩ := h.passes
    obtain ⟨ms, -, hpass'⟩ := h'.passes
    exact ⟨ls ++ ms, by simp [hne], hpass.trans hpass'⟩
  settled := h'.settled

end ReadState.Reaches

/-- At the depth `k` of nesting, the rule reads exactly the given phrases. -/
structure Rule.Reads {α : Type} (d : Dialect) (k : Nat) (r : Rule α) (phrase : Reading α) :
    Prop where
  /-- A successful rule has read a phrase. -/
  sound : ∀ {s a s'}, r s = (.ok a, s') → s.cursor.Tidy → s.depth = k →
    s.Reaches d s' ∧ phrase (s.cursor.wordsAhead d) a (s'.cursor.wordsAhead d)
  /-- A phrase ahead makes the rule succeed. -/
  complete : ∀ (s) {a ws}, s.cursor.Tidy → s.depth = k → phrase (s.cursor.wordsAhead d) a ws →
    ∃ s', r s = (.ok a, s') ∧ s'.cursor.wordsAhead d = ws

/-! ## Words that lead -/

/-- A vocabulary that shares no symbol with the quotation marks. -/
class Unquoted (α : Type) [Vocabulary α] : Prop where
  /-- No symbol is a quotation mark. -/
  ofSymbol?_quote : ∀ a : α, Vocabulary.ofSymbol? Quote (Vocabulary.symbol a) = none

instance : Unquoted InfixOp := ⟨by intro a; cases a <;> rfl⟩

instance : Unquoted PrefixOp := ⟨by intro a; cases a <;> rfl⟩

instance : Unquoted PostfixOp := ⟨by intro a; cases a <;> rfl⟩

instance : Unquoted Separator := ⟨by intro a; cases a <;> rfl⟩

/-- No symbol of such a vocabulary opens a literal. -/
theorem spelled?_quote_symbol {α : Type} [Vocabulary α] [Unquoted α] (d : Dialect) (a : α) :
    d.quotes.spelled? (Vocabulary.symbol a) = none := by
  unfold Allowed.spelled?
  rw [Unquoted.ofSymbol?_quote]
  rfl

/-- No bracket opens a literal. -/
theorem spelled?_quote_bracket (d : Dialect) (b : Bracket) :
    d.quotes.spelled? b.opening = none ∧ d.quotes.spelled? b.closing = none := by
  cases b <;> exact ⟨rfl, rfl⟩

/-- No word opens a literal. -/
theorem spelled?_quote_word (d : Dialect) {t : Text}
    (h : Text.IsWord t) : d.quotes.spelled? t = none := by
  rw [Option.eq_none_iff_forall_ne_some]
  intro q hq
  obtain ⟨rfl, -⟩ := (Allowed.spelled?_eq_some_iff _ _ _).1 hq
  obtain ⟨c, hc⟩ := List.exists_mem_of_ne_nil _ h.1
  have hword := h.2 c hc
  rw [(Lexeme.kind_of_mem_quote q hc).2] at hword
  cases hword

namespace Cursor

variable {d : Dialect} {c : Cursor}

section Vocabulary

variable {α : Type} [Vocabulary α] [DecidableEq α] {allowed : Allowed α}

/-- What a vocabulary says of the next word is what leads the words ahead. -/
theorem Tidy.spelled?_peekWord (hc : c.Tidy) (allowed : Allowed α) :
    allowed.spelled? c.peekWord.text = allowed.leading? (c.wordsAhead d) := by
  unfold Allowed.leading?
  rw [← hc.text_peekWord]

variable [OneSpelling α] [Unquoted α] {a : α}

/-- Passing a symbol that leads the words ahead. -/
theorem Tidy.passes_leading (hc : c.Tidy) (h : allowed.leading? (c.wordsAhead d) = some a) :
    ∃ ls, ls ≠ [] ∧ Passes d c ls c.skipWord ∧
      c.skipWord.wordsAhead d = (c.wordsAhead d).tail := by
  obtain ⟨ws, hws, -⟩ := (Allowed.leading?_eq_some_iff _ _ _).1 h
  obtain ⟨ls, hne, hpass, hwords⟩ := hc.passes_skipWord hws (spelled?_quote_symbol d a)
  rw [hws]
  exact ⟨ls, hne, hpass, hwords⟩

/-- Passing an operator if there is one. -/
theorem Tidy.passes_past (hc : c.Tidy) {op : Option α}
    (h : allowed.leading? (c.wordsAhead d) = op ∨ op = none) :
    ∃ ls, Passes d c ls (if op.isSome then c.skipWord else c) ∧
      (if op.isSome then c.skipWord else c).wordsAhead d = Phrase.past op (c.wordsAhead d) := by
  cases op with
  | none => exact ⟨[], .refl d c, rfl⟩
  | some a =>
    obtain ⟨ls, -, hpass, hwords⟩ := hc.passes_leading (h.resolve_right nofun)
    exact ⟨ls, hpass, hwords⟩

end Vocabulary

/-- The separator that the next word is. White space is no word, so that it is none of them. -/
theorem Tidy.toSeparator_peekWord (hc : c.Tidy) :
    c.peekWord.toSeparator d = d.separators.leading? (c.wordsAhead d) := by
  have hblank : c.peekWord.isWhitespace = false := hc.settled_skipSpace
  rw [← hc.spelled?_peekWord]
  unfold Lexeme.toSeparator Allowed.spelled?
  rw [hblank]
  rfl

/-- A separator that leads the words ahead is not white space. -/
theorem Tidy.isWhitespace_of_leading (hc : c.Tidy) {separator : Separator}
    (h : d.separators.leading? (c.wordsAhead d) = some separator) :
    separator.isWhitespace = false := by
  have hblank : c.peekWord.isWhitespace = false := hc.settled_skipSpace
  rw [← hc.spelled?_peekWord, Allowed.spelled?_eq_some_iff] at h
  rw [Lexeme.isWhitespace_eq, h.1] at hblank
  cases separator with
  | space => cases hblank
  | _ => rfl

/-- The postfix operator that the next word is depends on the words ahead alone. -/
theorem Tidy.postfixOp?_eq (hc : c.Tidy) (g : Grammar) :
    g.postfixOp? c = Phrase.postfixOp? g.dialect (c.wordsAhead g.dialect) := by
  unfold Grammar.postfixOp? Grammar.continuesAsInfix Phrase.postfixOp?
  have hin : c.peekWord.toInfixOp g.dialect =
      g.dialect.infixes.leading? (c.wordsAhead g.dialect) := hc.spelled?_peekWord _
  have hpost : c.peekWord.toPostfixOp g.dialect =
      g.dialect.postfixes.leading? (c.wordsAhead g.dialect) := hc.spelled?_peekWord _
  rw [hin, hpost]
  cases hlead : g.dialect.infixes.leading? (c.wordsAhead g.dialect) with
  | none => rfl
  | some op =>
    obtain ⟨ls, -, hpass, hwords⟩ := hc.passes_leading hlead
    have hstart : g.startsOperand c.skipWord.peekWord =
        Phrase.startsOperand g.dialect (c.wordsAhead g.dialect).tail := by
      rw [Phrase.startsOperand, ← hwords, ← (hpass.tidy hc).text_peekWord]
      exact g.startsOperand_congr rfl
    rw [hstart]

end Cursor

/-! ## Steps of a rule -/

section Steps

variable {d : Dialect} {s s' : ReadState}

/-- What is passed before a phrase counts as passed with it. -/
theorem ReadState.Reaches.of_passes {ls : List Lexeme} {c : Cursor}
    (hpass : Cursor.Passes d s.cursor ls c)
    (h : ReadState.Reaches d { s with cursor := c } s') : s.Reaches d s' where
  depth := h.depth
  passes := by
    obtain ⟨ms, hne, hpass'⟩ := h.passes
    exact ⟨ls ++ ms, by simp [hne], hpass.trans hpass'⟩
  settled := h.settled

/-- A word that is no quotation mark is passed together with the white space around it. -/
theorem Cursor.Tidy.reaches_skipWord {t : Text} {ws : List Text} (hs : s.cursor.Tidy)
    (h : s.cursor.wordsAhead d = t :: ws) (hq : d.quotes.spelled? t = none) :
    s.Reaches d { s with cursor := s.cursor.skipWord.skipSpace } ∧
      s.cursor.skipWord.skipSpace.wordsAhead d = ws := by
  obtain ⟨ls, hne, hpass, hwords⟩ := hs.passes_skipWord h hq
  have hs' := hpass.tidy hs
  obtain ⟨sp, hspace, -⟩ := Cursor.passes_skipSpace d _ hs'
  refine ⟨⟨rfl, ⟨ls ++ sp, by simp [hne], hpass.trans hspace⟩, hs'.settled_skipSpace⟩, ?_⟩
  rw [Cursor.wordsAhead_skipSpace hs', hwords]

/-- A word of identifier or number characters is passed with the white space around it. -/
theorem Cursor.Tidy.reaches_word {t : Text} (hs : s.cursor.Tidy) (h : s.cursor.peekWord.text = t)
    (hword : Text.IsWord t) :
    s.Reaches d { s with cursor := s.cursor.skipWord.skipSpace } ∧
      s.cursor.wordsAhead d = t :: s.cursor.skipWord.skipSpace.wordsAhead d := by
  obtain ⟨ws, hws⟩ := hs.wordsAhead_of_text_peekWord (d := d) h hword.1
  obtain ⟨hreach, hwords⟩ := hs.reaches_skipWord hws (spelled?_quote_word d hword)
  exact ⟨hreach, by rw [hws, hwords]⟩

variable {α : Type} {k : Nat} {r : Rule α} {phrase : Reading α}

/-- A rule that is run after white space was passed reads what is ahead of the white space. -/
theorem Rule.Reads.sound_skipSpace (h : Reads d k r phrase) {a : α}
    (hrun : r { s with cursor := s.cursor.skipSpace } = (.ok a, s')) (hs : s.cursor.Tidy)
    (hk : s.depth = k) :
    s.Reaches d s' ∧ phrase (s.cursor.wordsAhead d) a (s'.cursor.wordsAhead d) := by
  obtain ⟨hreach, hphrase⟩ := h.sound hrun hs.skipSpace hk
  rw [Cursor.wordsAhead_skipSpace hs] at hphrase
  obtain ⟨sp, hspace, -⟩ := Cursor.passes_skipSpace d s.cursor hs
  exact ⟨hreach.of_passes hspace, hphrase⟩

theorem Rule.Reads.complete_skipSpace (h : Reads d k r phrase) {a : α} {ws : List Text}
    (hs : s.cursor.Tidy) (hk : s.depth = k) (hphrase : phrase (s.cursor.wordsAhead d) a ws) :
    ∃ s', r { s with cursor := s.cursor.skipSpace } = (.ok a, s') ∧
      s'.cursor.wordsAhead d = ws := by
  rw [← Cursor.wordsAhead_skipSpace hs] at hphrase
  exact h.complete { s with cursor := s.cursor.skipSpace } hs.skipSpace hk hphrase

end Steps

end FlatExpr
