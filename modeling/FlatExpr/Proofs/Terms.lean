import FlatExpr.Proofs.Rules

/-!
# Terms and operands

The rules for literals, bracketed operations, terms and operands read exactly the phrases of their
kind, whatever the white space between the words is. They are treated for any rule in the place of
the operations nested in them, as they are defined.
-/

namespace FlatExpr.Grammar

open Rule Cursor

variable {g : Grammar} {k : Nat}

/-! ## Literals -/

section Literals

variable {closes : Lexeme → Bool} {run run' : TextRun} {behind behind' ls ahead' : List Lexeme}

/-- Gathering ends at the first lexeme that closes the literal, with the text up to there. -/
theorem gather_eq_some (h : gather closes run behind ls = (some run', behind', ahead')) :
    ∃ content closing, ls = content ++ closing :: ahead' ∧
      behind' = closing :: (content.reverse ++ behind) ∧ (∀ l ∈ content, closes l = false) ∧
      closes closing = true ∧ run'.text = run.text ++ (content.map Lexeme.text).flatten := by
  induction ls generalizing run behind with
  | nil => cases h
  | cons l ls ih =>
    unfold gather at h
    split_ifs at h with hterminal hcloses
    · cases h
    · cases h
      exact ⟨[], l, rfl, rfl, by simp, hcloses, by simp⟩
    · obtain ⟨content, closing, rfl, hbehind, hcontent, hclosing, htext⟩ := ih h
      refine ⟨l :: content, closing, rfl, by rw [hbehind]; simp, ?_, hclosing, ?_⟩
      · intro m hm
        rcases List.mem_cons.1 hm with rfl | hm
        · simpa using hcloses
        · exact hcontent m hm
      · rw [htext, TextRun.text_push]
        simp

/-- Gathering succeeds when some lexeme closes the literal and no terminal comes before it. -/
theorem gather_of_closing (content rest : List Lexeme) {closing : Lexeme}
    (hne : ∀ l ∈ content ++ [closing], l.text ≠ []) (hcontent : ∀ l ∈ content, closes l = false)
    (hclosing : closes closing = true) (run : TextRun) (behind : List Lexeme) :
    ∃ run', run'.text = run.text ++ (content.map Lexeme.text).flatten ∧
      gather closes run behind (content ++ closing :: rest) =
        (some run', closing :: (content.reverse ++ behind), rest) := by
  induction content generalizing run behind with
  | nil =>
    have hterminal : closing.isTerminal = false := by
      simpa [Lexeme.isTerminal] using hne closing (by simp)
    exact ⟨run, by simp, by simp [gather, hterminal, hclosing]⟩
  | cons l content ih =>
    have hterminal : l.isTerminal = false := by simpa [Lexeme.isTerminal] using hne l (by simp)
    obtain ⟨run', htext, h⟩ := ih (fun m hm => hne m (by simp_all))
      (fun m hm => hcontent m (by simp [hm])) (run.push l) (l :: behind)
    refine ⟨run', ?_, ?_⟩
    · rw [htext, TextRun.text_push]
      simp
    · rw [List.cons_append, gather, hterminal, hcontent l (by simp)]
      simp [h]

end Literals

variable {s s' : ReadState}

/-- Where no lexeme is empty, the text of a literal is read up to the first one that closes it. -/
theorem textUpTo_eq_some_iff {closes : Lexeme → Bool} {value : Text}
    (hne : ∀ l ∈ s.cursor.ahead, l.text ≠ []) :
    textUpTo closes s = (.ok (some value), s') ↔ ∃ content closing rest,
      s.cursor.ahead = content ++ closing :: rest ∧ (∀ l ∈ content, closes l = false) ∧
      closes closing = true ∧ (content.map Lexeme.text).flatten = value ∧
      { s with cursor := ⟨closing :: (content.reverse ++ s.cursor.behind), rest,
        s.cursor.terminal⟩ } = s' := by
  constructor
  · intro hrun
    unfold textUpTo at hrun
    rcases hgather : gather closes .empty s.cursor.behind s.cursor.ahead with
      ⟨_ | run, behind', ahead'⟩
    · rw [hgather] at hrun
      cases hrun
    · obtain ⟨content, closing, hahead, rfl, hcontent, hclosing, htext⟩ := gather_eq_some hgather
      rw [hgather, Prod.mk.injEq, Except.ok.injEq] at hrun
      obtain ⟨hvalue, rfl⟩ := hrun
      have hvalue : run.text = value := Option.some.inj hvalue
      rw [htext] at hvalue
      exact ⟨content, closing, ahead', hahead, hcontent, hclosing, hvalue, rfl⟩
  · rintro ⟨content, closing, rest, hahead, hcontent, hclosing, rfl, rfl⟩
    have hne' : ∀ l ∈ content ++ [closing], l.text ≠ [] := by
      intro l hl
      apply hne l
      rw [hahead, List.append_cons]
      exact List.mem_append_left rest hl
    obtain ⟨run, htext, hgather⟩ :=
      gather_of_closing content rest hne' hcontent hclosing .empty s.cursor.behind
    unfold textUpTo
    rw [hahead, hgather]
    dsimp only
    rw [Option.map_some, htext]
    rfl

/-- A successful run of the rule for literals. -/
theorem literal_eq_ok_iff {e : Expr} :
    g.literal s = (.ok e, s') ↔ ∃ q value t,
      s.cursor.peekWord.toQuote g.dialect = some q ∧
      textUpTo (fun l => l.toQuote g.dialect == some q) { s with cursor := s.cursor.skipWord } =
        (.ok (some value), t) ∧
      .literal q value = e ∧ { t with cursor := t.cursor.skipSpace } = s' := by
  rw [literal, bind_eq_ok_iff]
  constructor
  · rintro ⟨opened, s₁, hnext, hrest⟩
    obtain ⟨rfl, rfl⟩ := next_eq_ok_iff.1 hnext
    cases hq : s.cursor.peekWord.toQuote g.dialect with
    | none => simp only [hq, fail_eq_ok_iff] at hrest
    | some q =>
    simp only [hq] at hrest
    obtain ⟨content, t, htext, hafter⟩ := bind_eq_ok_iff.1 hrest
    cases content with
    | none => exact (fail_eq_ok_iff.1 hafter).elim
    | some value =>
    obtain ⟨_, s₂, hmove, hend⟩ := bind_eq_ok_iff.1 hafter
    obtain rfl := move_eq_ok_iff.1 hmove
    obtain ⟨rfl, rfl⟩ := pure_eq_ok_iff.1 hend
    exact ⟨q, value, t, rfl, htext, rfl, rfl⟩
  · rintro ⟨q, value, t, hq, htext, rfl, rfl⟩
    refine ⟨_, _, next_eq_ok_iff.2 ⟨rfl, rfl⟩, ?_⟩
    simp only [hq]
    exact bind_eq_ok_iff.2 ⟨_, t, htext, bind_eq_ok_iff.2 ⟨(), _, move_eq_ok_iff.2 rfl,
      pure_eq_ok_iff.2 ⟨rfl, rfl⟩⟩⟩

/-- The lexemes of a literal, passed from the mark that opens it to the one that closes it. -/
theorem passes_literal {d : Dialect} {c : Cursor} {q : Quote} {l closing : Lexeme}
    {content rest : List Lexeme} (hahead : c.ahead = l :: (content ++ closing :: rest))
    (hl : l.text = q.symbol) (hq : d.quotes.allows q = true)
    (hcontent : ∀ m ∈ content, d.quotes.spelled? m.text ≠ some q)
    (hclosing : closing.text = q.symbol) :
    Passes d c (l :: content ++ [closing])
        ⟨closing :: (content.reverse ++ l :: c.behind), rest, c.terminal⟩ ∧
      words d ((l :: content ++ [closing]).map Lexeme.text) =
        [q.symbol, (content.map Lexeme.text).flatten, q.symbol] := by
  have htexts : (l :: content ++ [closing]).map Lexeme.text =
      q.symbol :: content.map Lexeme.text ++ [q.symbol] := by
    rw [List.map_append, List.map_cons, hl, List.map_singleton, hclosing]
  have hcontent' : ∀ t ∈ content.map Lexeme.text, d.quotes.spelled? t ≠ some q := by
    intro t ht
    obtain ⟨m, hm, rfl⟩ := List.mem_map.1 ht
    exact hcontent m hm
  refine ⟨⟨by simp [hahead], by simp, rfl, ?_⟩, ?_⟩
  · rw [htexts]
    exact closed_literal hq hcontent'
  · rw [htexts, words, tokens_literal hq hcontent']
    rfl

/-- Lexemes that do not spell a mark do not hold it, since a mark is a lexeme of its own. -/
theorem not_mem_flatten_of_tidy {d : Dialect} {ls : List Lexeme} {q : Quote}
    (htidy : Tidy (ls.map Lexeme.text)) (hq : d.quotes.allows q = true)
    (h : ∀ m ∈ ls, d.quotes.spelled? m.text ≠ some q) :
    ∀ c ∈ q.symbol, c ∉ (ls.map Lexeme.text).flatten := by
  intro c hc hmem
  obtain ⟨t, ht, hct⟩ := List.mem_flatten.1 hmem
  have hmark : t = q.symbol := htidy.quotes t ht q c hc hct
  obtain ⟨m, hm, rfl⟩ := List.mem_map.1 ht
  exact h m hm ((Allowed.spelled?_eq_some_iff _ _ _).2 ⟨hmark, hq⟩)

/-- The rule for literals reads literals. -/
theorem reads_literal : Reads g.dialect k g.literal (Phrase.Literal g.dialect) where
  sound {s e s'} h hs hk := by
    obtain ⟨q, value, t, hq, htext, rfl, rfl⟩ := literal_eq_ok_iff.1 h
    obtain ⟨hopened, hallowed⟩ := (Allowed.spelled?_eq_some_iff _ _ _).1 hq
    obtain ⟨ws, hws⟩ := hs.wordsAhead_of_text_peekWord (d := g.dialect) hopened
      (OneSpelling.symbol_ne_nil q)
    -- the lexemes ahead are the opening mark, the content, the closing mark and the rest
    obtain ⟨l, ls, hahead, hl⟩ := hs.ahead_skipSpace hws
    have hskip : s.cursor.skipWord =
        ⟨l :: s.cursor.skipSpace.behind, ls, s.cursor.skipSpace.terminal⟩ := skip_of_ahead hahead
    have htidy : Tidy ((l :: ls).map Lexeme.text) := by
      rw [← hahead]
      exact hs.skipSpace.ahead
    rw [hskip, textUpTo_eq_some_iff fun m hm =>
      htidy.nonempty _ (List.mem_map_of_mem (List.mem_cons_of_mem l hm))] at htext
    obtain ⟨content, closing, rest, rfl, hcontent, hclosing, rfl, rfl⟩ := htext
    have hcontent' : ∀ m ∈ content, m.toQuote g.dialect ≠ some q := by
      intro m hm
      exact beq_eq_false_iff_ne.1 (hcontent m hm)
    have hclosing' : closing.text = q.symbol :=
      ((Allowed.spelled?_eq_some_iff _ _ _).1 (beq_iff_eq.1 hclosing)).1
    -- they are passed with the white space around them
    obtain ⟨hpass, hwords⟩ := passes_literal hahead hl hallowed hcontent' hclosing'
    obtain ⟨sp, hspace, hspaceWords⟩ := passes_skipSpace g.dialect s.cursor hs
    have ht := hpass.tidy hs.skipSpace
    obtain ⟨sp', hspace', -⟩ := passes_skipSpace g.dialect _ ht
    refine ⟨⟨rfl, ⟨_, by simp, (hspace.trans hpass).trans hspace'⟩, ht.settled_skipSpace⟩, ?_⟩
    rw [hspace.wordsAhead_eq, hspaceWords, hpass.wordsAhead_eq, hwords, wordsAhead_skipSpace ht]
    refine .mk hallowed (not_mem_flatten_of_tidy ?_ hallowed hcontent')
    have hsplit : (l :: (content ++ closing :: rest)).map Lexeme.text =
        [l.text] ++ (content.map Lexeme.text ++ (closing :: rest).map Lexeme.text) := by simp
    rw [hsplit] at htidy
    exact htidy.right.left
  complete s e ws hs hk h := by
    generalize hws : s.cursor.wordsAhead g.dialect = words at h
    cases h with
    | @mk q value ws hallowed hclear =>
    obtain ⟨l, ls, hahead, hl⟩ := hs.ahead_skipSpace hws
    have hskip : s.cursor.skipWord =
        ⟨l :: s.cursor.skipSpace.behind, ls, s.cursor.skipSpace.terminal⟩ := skip_of_ahead hahead
    -- the words tell that some lexeme closes the literal
    have hwords := hws
    rw [← wordsAhead_skipSpace hs, wordsAhead, textsAhead, hahead, List.map_cons, hl,
      words_cons_quote hallowed, List.cons.injEq] at hwords
    obtain ⟨texts, t, rest, hsplit, htexts, ht, hvalue, hrest⟩ := closes_of_words hwords.2
    obtain ⟨content, ls', rfl, rfl, hls'⟩ := List.map_eq_append_iff.1 hsplit
    obtain ⟨closing, ahead', rfl, rfl, rfl⟩ := List.map_eq_cons_iff.1 hls'
    have hcontent : ∀ m ∈ content, m.toQuote g.dialect ≠ some q :=
      fun m hm => htexts m.text (List.mem_map_of_mem hm)
    have htext : textUpTo (fun m => m.toQuote g.dialect == some q)
        { s with cursor := s.cursor.skipWord } = (.ok (some value),
          { s with cursor := ⟨closing :: (content.reverse ++ l :: s.cursor.skipSpace.behind),
            ahead', s.cursor.skipSpace.terminal⟩ }) := by
      rw [hskip, textUpTo_eq_some_iff]
      · exact ⟨content, closing, ahead', rfl, fun m hm => beq_eq_false_iff_ne.2 (hcontent m hm),
          beq_iff_eq.2 ht, hvalue.symm, rfl⟩
      · intro m hm
        refine hs.skipSpace.ahead.nonempty _ (List.mem_map_of_mem ?_)
        rw [hahead]
        exact List.mem_cons_of_mem l hm
    have hquote : s.cursor.peekWord.toQuote g.dialect = some q := by
      rw [peekWord, peek_of_ahead hahead]
      exact (Allowed.spelled?_eq_some_iff _ _ _).2 ⟨hl, hallowed⟩
    refine ⟨_, literal_eq_ok_iff.2 ⟨q, value, _, hquote, htext, rfl, rfl⟩, ?_⟩
    obtain ⟨hpass, -⟩ := passes_literal hahead hl hallowed hcontent
      ((Allowed.spelled?_eq_some_iff _ _ _).1 ht).1
    rw [wordsAhead_skipSpace (hpass.tidy hs.skipSpace), hrest]
    rfl

/-! ## Terms -/

section Operation

variable {operation : Rule Expr} {phrase : Reading Expr} {s s' : ReadState} {e : Expr}

/-- A successful run of the rule for brackets. -/
theorem inBracketsWith_eq_ok_iff :
    g.inBracketsWith operation s = (.ok e, s') ↔ ∃ b inner t,
      g.opens? s.cursor.peekWord = some b ∧
      operation { s with cursor := s.cursor.skipWord } = (.ok inner, t) ∧
      g.closes? t.cursor.peekWord = some b ∧ .bracketed b inner = e ∧
      { t with cursor := t.cursor.skipWord.skipSpace } = s' := by
  rw [inBracketsWith, bind_eq_ok_iff]
  constructor
  · rintro ⟨opened, s₁, hnext, hrest⟩
    obtain ⟨rfl, rfl⟩ := next_eq_ok_iff.1 hnext
    cases hopens : g.opens? s.cursor.peekWord with
    | none => simp only [hopens, fail_eq_ok_iff] at hrest
    | some b =>
    simp only [hopens] at hrest
    obtain ⟨inner, t, hinner, hafter⟩ := bind_eq_ok_iff.1 hrest
    obtain ⟨closed, s₂, hnext', hclose⟩ := bind_eq_ok_iff.1 hafter
    obtain ⟨rfl, rfl⟩ := next_eq_ok_iff.1 hnext'
    cases hcloses : g.closes? t.cursor.peekWord with
    | none => simp only [hcloses, fail_eq_ok_iff] at hclose
    | some b' =>
    simp only [hcloses] at hclose
    obtain ⟨_, s₃, hmove, hend⟩ := bind_eq_ok_iff.1 hclose
    obtain rfl := move_eq_ok_iff.1 hmove
    by_cases hbb' : b = b'
    · rw [if_pos hbb'] at hend
      obtain ⟨rfl, rfl⟩ := pure_eq_ok_iff.1 hend
      exact ⟨b, inner, t, rfl, hinner, by rw [hcloses, hbb'], rfl, rfl⟩
    · -- brackets of two kinds are a mismatch
      rw [if_neg hbb'] at hend
      exact (fail_eq_ok_iff.1 hend).elim
  · rintro ⟨b, inner, t, hopens, hinner, hcloses, rfl, rfl⟩
    refine ⟨_, _, next_eq_ok_iff.2 ⟨rfl, rfl⟩, ?_⟩
    simp only [hopens]
    refine bind_eq_ok_iff.2 ⟨inner, t, hinner,
      bind_eq_ok_iff.2 ⟨_, _, next_eq_ok_iff.2 ⟨rfl, rfl⟩, ?_⟩⟩
    simp only [hcloses, if_true]
    exact bind_eq_ok_iff.2 ⟨(), _, move_eq_ok_iff.2 rfl, pure_eq_ok_iff.2 ⟨rfl, rfl⟩⟩

/-- The rule for brackets reads bracketed operations. -/
theorem reads_inBracketsWith (h : Reads g.dialect k operation phrase) :
    Reads g.dialect k (g.inBracketsWith operation) (Phrase.Bracketed g.dialect phrase) where
  sound {s e s'} hrun hs hk := by
    obtain ⟨b, inner, t, hopens, hinner, hcloses, rfl, rfl⟩ := inBracketsWith_eq_ok_iff.1 hrun
    obtain ⟨hopened, hallowed⟩ := (g.opens?_eq_some_iff _ _).1 hopens
    obtain ⟨hclosed, -⟩ := (g.closes?_eq_some_iff _ _).1 hcloses
    -- the opening bracket
    obtain ⟨ws, hws⟩ := hs.wordsAhead_of_text_peekWord (d := g.dialect) hopened b.opening_ne_nil
    obtain ⟨ls, hne, hpass, hwords⟩ :=
      hs.passes_skipWord hws (spelled?_quote_bracket g.dialect b).1
    -- the operation
    obtain ⟨hreach, hphrase⟩ := h.sound hinner (hpass.tidy hs) hk
    rw [hwords] at hphrase
    have ht : t.cursor.Tidy := hreach.tidy (hpass.tidy hs)
    obtain ⟨ms, -, hpass'⟩ := hreach.passes
    -- the closing bracket and the white space after it
    obtain ⟨ws', hws'⟩ := ht.wordsAhead_of_text_peekWord (d := g.dialect) hclosed b.closing_ne_nil
    obtain ⟨ns, -, hpass'', hwords'⟩ :=
      ht.passes_skipWord hws' (spelled?_quote_bracket g.dialect b).2
    have ht' := hpass''.tidy ht
    obtain ⟨sp, hspace, -⟩ := passes_skipSpace g.dialect _ ht'
    refine ⟨⟨hreach.depth, ⟨_, ?_, ((hpass.trans hpass').trans hpass'').trans hspace⟩,
      ht'.settled_skipSpace⟩, ?_⟩
    · simp [hne]
    · rw [hws'] at hphrase
      rw [hws, wordsAhead_skipSpace ht', hwords']
      exact .mk hallowed hphrase
  complete s e ws hs hk hphrase := by
    generalize hws : s.cursor.wordsAhead g.dialect = ws₀ at hphrase
    cases hphrase with
    | @mk b inner ws₁ ws' hallowed hinside =>
    obtain ⟨ls, -, hpass, hwords⟩ :=
      hs.passes_skipWord hws (spelled?_quote_bracket g.dialect b).1
    have hs' := hpass.tidy hs
    -- the operation is ahead after the opening bracket, and ends before the closing one
    rw [← hwords] at hinside
    obtain ⟨t, hinner, hrest⟩ := h.complete { s with cursor := s.cursor.skipWord } hs' hk hinside
    have ht : t.cursor.Tidy := (h.sound hinner hs' hk).1.tidy hs'
    obtain ⟨ms, -, hpass', hwords'⟩ :=
      ht.passes_skipWord hrest (spelled?_quote_bracket g.dialect b).2
    have hopens : g.opens? s.cursor.peekWord = some b := by
      rw [g.opens?_eq_some_iff, hs.text_peekWord (d := g.dialect), hws]
      exact ⟨rfl, hallowed⟩
    have hcloses : g.closes? t.cursor.peekWord = some b := by
      rw [g.closes?_eq_some_iff, ht.text_peekWord (d := g.dialect), hrest]
      exact ⟨rfl, hallowed⟩
    refine ⟨_, inBracketsWith_eq_ok_iff.2 ⟨b, inner, t, hopens, hinner, hcloses, rfl, rfl⟩, ?_⟩
    rw [wordsAhead_skipSpace (hpass'.tidy ht), hwords']

/-- A successful run of the rule for terms: the category of the next word decides on how it goes on
from there. -/
theorem termWith_eq_ok_iff :
    g.termWith operation s = (.ok e, s') ↔
      (∃ name, s.cursor.peekWord.classify g.dialect = .ok (.identifier name) ∧
        .identifier name = e ∧ { s with cursor := s.cursor.skipWord.skipSpace } = s') ∨
      (∃ value, s.cursor.peekWord.classify g.dialect = .ok (.numeric value) ∧
        .numeric value = e ∧ { s with cursor := s.cursor.skipWord.skipSpace } = s') ∨
      (∃ op, s.cursor.peekWord.classify g.dialect = .ok (.prefixOp op) ∧
        operation { s with cursor := s.cursor.skipSpace } = (.ok e, s')) ∨
      (∃ q, s.cursor.peekWord.classify g.dialect = .ok (.quote q) ∧
        g.literal { s with cursor := s.cursor.skipSpace } = (.ok e, s')) ∨
      (∃ b, s.cursor.peekWord.classify g.dialect = .ok (.bracket b true) ∧
        g.inBracketsWith operation { s with cursor := s.cursor.skipSpace } = (.ok e, s')) := by
  have hpeek : s.cursor.skipSpace.peek = s.cursor.peekWord := rfl
  simp only [termWith, bind_eq_ok_iff, move_eq_ok_iff, look_eq_ok_iff]
  constructor
  · rintro ⟨_, _, rfl, l, _, ⟨rfl, rfl⟩, hrun⟩
    dsimp only at hrun
    rw [hpeek] at hrun
    cases hcategory : s.cursor.peekWord.classify g.dialect with
    | error err => simp only [hcategory, fail_eq_ok_iff] at hrun
    | ok category =>
    cases category with
    | identifier name =>
      simp only [hcategory, bind_eq_ok_iff, move_eq_ok_iff, pure_eq_ok_iff] at hrun
      obtain ⟨_, _, rfl, rfl, rfl⟩ := hrun
      exact .inl ⟨name, rfl, rfl, rfl⟩
    | numeric value =>
      simp only [hcategory, bind_eq_ok_iff, move_eq_ok_iff, pure_eq_ok_iff] at hrun
      obtain ⟨_, _, rfl, rfl, rfl⟩ := hrun
      exact .inr (.inl ⟨value, rfl, rfl, rfl⟩)
    | prefixOp op =>
      simp only [hcategory] at hrun
      exact .inr (.inr (.inl ⟨op, rfl, hrun⟩))
    | quote q =>
      simp only [hcategory] at hrun
      exact .inr (.inr (.inr (.inl ⟨q, rfl, hrun⟩)))
    | bracket b opens =>
      cases opens with
      | false => simp only [hcategory, Bool.false_eq_true, if_false, fail_eq_ok_iff] at hrun
      | true =>
        simp only [hcategory, if_true] at hrun
        exact .inr (.inr (.inr (.inr ⟨b, rfl, hrun⟩)))
    | _ => simp only [hcategory, fail_eq_ok_iff] at hrun
  · intro hcases
    refine ⟨(), _, rfl, _, _, ⟨hpeek, rfl⟩, ?_⟩
    rcases hcases with ⟨name, hcategory, rfl, rfl⟩ | ⟨value, hcategory, rfl, rfl⟩ |
      ⟨op, hcategory, hrun⟩ | ⟨q, hcategory, hrun⟩ | ⟨b, hcategory, hrun⟩
    · simp only [hcategory]
      exact bind_eq_ok_iff.2 ⟨(), _, move_eq_ok_iff.2 rfl, pure_eq_ok_iff.2 ⟨rfl, rfl⟩⟩
    · simp only [hcategory]
      exact bind_eq_ok_iff.2 ⟨(), _, move_eq_ok_iff.2 rfl, pure_eq_ok_iff.2 ⟨rfl, rfl⟩⟩
    · simp only [hcategory]
      exact hrun
    · simp only [hcategory]
      exact hrun
    · simp only [hcategory, if_true]
      exact hrun

/-- The rule for terms reads terms. -/
theorem reads_termWith (h : Reads g.dialect k operation phrase) :
    Reads g.dialect k (g.termWith operation) (Phrase.Term g.dialect phrase) where
  sound {s e s'} hrun hs hk := by
    rcases termWith_eq_ok_iff.1 hrun with ⟨name, hcategory, rfl, rfl⟩ |
      ⟨value, hcategory, rfl, rfl⟩ | ⟨op, hcategory, hrun⟩ | ⟨q, hcategory, hrun⟩ |
      ⟨b, hcategory, hrun⟩
    · obtain ⟨htext, hshape, hallowed⟩ := (Lexeme.classify_eq_identifier_iff _).1 hcategory
      obtain ⟨hreach, hwords⟩ :=
        hs.reaches_word (d := g.dialect) htext (Lexeme.isWord_of_isIdentifierText hshape)
      rw [hwords]
      exact ⟨hreach, .identifier hshape hallowed⟩
    · obtain ⟨htext, hshape, hallowed⟩ := (Lexeme.classify_eq_numeric_iff _).1 hcategory
      obtain ⟨hreach, hwords⟩ :=
        hs.reaches_word (d := g.dialect) htext (Lexeme.isWord_of_isNumericText hshape)
      rw [hwords]
      exact ⟨hreach, .numeric hshape hallowed⟩
    · obtain ⟨htext, hallowed⟩ := (Lexeme.classify_eq_prefixOp_iff _).1 hcategory
      obtain ⟨hreach, hphrase⟩ := h.sound_skipSpace hrun hs hk
      have hlead : g.dialect.prefixes.leading? (s.cursor.wordsAhead g.dialect) = some op := by
        rw [← hs.spelled?_peekWord, htext]
        exact Allowed.spelled?_symbol hallowed
      exact ⟨hreach, .prefixed hlead hphrase⟩
    · obtain ⟨hreach, hphrase⟩ := reads_literal.sound_skipSpace hrun hs hk
      exact ⟨hreach, .literal hphrase⟩
    · obtain ⟨htext, -, hangle⟩ := (Lexeme.classify_eq_opening_iff _).1 hcategory
      obtain ⟨hreach, hphrase⟩ := (reads_inBracketsWith h).sound_skipSpace hrun hs hk
      refine ⟨hreach, .bracketed ?_ hphrase⟩
      -- an angle opens a bracket only where it is no infix operator
      intro hhead
      apply hangle
      obtain ⟨ws, hws⟩ := hs.wordsAhead_of_text_peekWord (d := g.dialect) htext b.opening_ne_nil
      rw [hws, List.head?_cons, Option.some.injEq] at hhead
      exact Bracket.opening_inj.1 hhead
  complete s e ws hs hk hphrase := by
    simp only [termWith_eq_ok_iff]
    have htext := hs.text_peekWord (d := g.dialect)
    generalize hws : s.cursor.wordsAhead g.dialect = ws₀ at hphrase htext
    cases hphrase with
    | @identifier name _ hshape hallowed =>
      have hcategory := (Lexeme.classify_eq_identifier_iff (d := g.dialect) name).2
        ⟨htext, hshape, hallowed⟩
      obtain ⟨-, hwords⟩ := hs.reaches_skipWord hws
        (spelled?_quote_word g.dialect (Lexeme.isWord_of_isIdentifierText hshape))
      exact ⟨_, .inl ⟨name, hcategory, rfl, rfl⟩, hwords⟩
    | @numeric value _ hshape hallowed =>
      have hcategory := (Lexeme.classify_eq_numeric_iff (d := g.dialect) value).2
        ⟨htext, hshape, hallowed⟩
      obtain ⟨-, hwords⟩ := hs.reaches_skipWord hws
        (spelled?_quote_word g.dialect (Lexeme.isWord_of_isNumericText hshape))
      exact ⟨_, .inr (.inl ⟨value, hcategory, rfl, rfl⟩), hwords⟩
    | literal hliteral =>
      have hphrase := hliteral
      rw [← hws] at hphrase
      obtain ⟨s', hrun, hwords⟩ := reads_literal.complete_skipSpace hs hk hphrase
      cases hliteral with
      | @mk q value ws' hallowed hclear =>
        have hcategory := (Lexeme.classify_eq_quote_iff (d := g.dialect) q).2 ⟨htext, hallowed⟩
        exact ⟨s', .inr (.inr (.inr (.inl ⟨q, hcategory, hrun⟩))), hwords⟩
    | bracketed hopens hbracketed =>
      have hphrase := hbracketed
      rw [← hws] at hphrase
      obtain ⟨s', hrun, hwords⟩ := (reads_inBracketsWith h).complete_skipSpace hs hk hphrase
      cases hbracketed with
      | @mk b inner ws₂ ws' hallowed hinside =>
        have hcategory := (Lexeme.classify_eq_opening_iff (d := g.dialect) b).2
          ⟨htext, hallowed, fun hb => hopens (by rw [hb]; rfl)⟩
        exact ⟨s', .inr (.inr (.inr (.inr ⟨b, hcategory, hrun⟩))), hwords⟩
    | @prefixed _ _ _ op hlead hoperation =>
      have hspelled : g.dialect.prefixes.spelled? s.cursor.peekWord.text = some op := by
        rw [htext]
        exact hlead
      have hcategory := (Lexeme.classify_eq_prefixOp_iff (l := s.cursor.peekWord)
        (d := g.dialect) op).2 ((Allowed.spelled?_eq_some_iff _ _ op).1 hspelled)
      rw [← hws] at hoperation
      obtain ⟨s', hrun, hwords⟩ := h.complete_skipSpace hs hk hoperation
      exact ⟨s', .inr (.inr (.inl ⟨op, hcategory, hrun⟩)), hwords⟩

/-! ## Operands -/

/-- A successful run of the rule for operands. -/
theorem operandWith_eq_ok_iff :
    g.operandWith operation s = (.ok e, s') ↔ ∃ before term t after,
      s.cursor.peekWord.toPrefixOp g.dialect = before ∧
      g.termWith operation { s with
        cursor := if before.isSome then s.cursor.skipSpace.skipWord else s.cursor.skipSpace } =
        (.ok term, t) ∧
      g.postfixOp? t.cursor.skipSpace = after ∧ attach before term after = e ∧
      { t with cursor := (if after.isSome then t.cursor.skipSpace.skipWord
        else t.cursor.skipSpace).skipSpace } = s' := by
  simp only [operandWith, bind_eq_ok_iff, move_eq_ok_iff, look_eq_ok_iff, pure_eq_ok_iff]
  constructor
  · rintro ⟨_, s₁, rfl, before, s₂, ⟨hbefore, rfl⟩, _, s₃, rfl, term, t, hterm, _, s₄, rfl, after,
      s₅, ⟨hafter, rfl⟩, _, s₆, rfl, rfl, rfl⟩
    refine ⟨before, term, t, after, hbefore, hterm, hafter, rfl, ?_⟩
    rw [apply_ite Cursor.skipSpace]
  · rintro ⟨before, term, t, after, hbefore, hterm, hafter, rfl, rfl⟩
    refine ⟨(), _, rfl, before, _, ⟨hbefore, rfl⟩, (), _, rfl, term, t, hterm, (), _, rfl, after, _,
      ⟨hafter, rfl⟩, (), _, rfl, rfl, ?_⟩
    rw [apply_ite Cursor.skipSpace]

/-- The rule for operands reads operands. -/
theorem reads_operandWith (h : Reads g.dialect k operation phrase) :
    Reads g.dialect k (g.operandWith operation) (Phrase.Operand g.dialect phrase) where
  sound {s e s'} hrun hs hk := by
    obtain ⟨before, term, t, after, hbefore, hterm, hafter, rfl, rfl⟩ :=
      operandWith_eq_ok_iff.1 hrun
    -- the prefix operator
    have hlead : g.dialect.prefixes.leading? (s.cursor.wordsAhead g.dialect) = before := by
      rw [← hs.spelled?_peekWord]
      exact hbefore
    obtain ⟨sp, hspace, -⟩ := passes_skipSpace g.dialect s.cursor hs
    have hlead' : g.dialect.prefixes.leading? (s.cursor.skipSpace.wordsAhead g.dialect) =
        before := by rw [wordsAhead_skipSpace hs, hlead]
    obtain ⟨ls, hpass, hwords⟩ := hs.skipSpace.passes_past (.inl hlead')
    rw [wordsAhead_skipSpace hs] at hwords
    have hs₁ := hpass.tidy hs.skipSpace
    -- the term
    obtain ⟨hreach, hphrase⟩ := (reads_termWith h).sound hterm hs₁ hk
    have ht := hreach.tidy hs₁
    have hsettled : t.cursor.skipSpace = t.cursor := skipSpace_of_settled hreach.settled
    rw [hsettled, ht.postfixOp?_eq] at hafter
    obtain ⟨ms, hne, hpass'⟩ := hreach.passes
    -- the postfix operator
    have hpost := Phrase.postfixOp?_cases g.dialect (t.cursor.wordsAhead g.dialect)
    rw [hafter] at hpost
    obtain ⟨ns, hpass'', hwords''⟩ := ht.passes_past hpost
    have ht' := hpass''.tidy ht
    obtain ⟨sp', hspace', -⟩ := passes_skipSpace g.dialect _ ht'
    rw [hsettled]
    have hall := (((hspace.trans hpass).trans hpass').trans hpass'').trans hspace'
    refine ⟨⟨hreach.depth, ⟨_, ?_, hall⟩, ht'.settled_skipSpace⟩, ?_⟩
    · simp [hne]
    · rw [wordsAhead_skipSpace ht', hwords'', ← hafter, ← hlead]
      refine .mk ?_
      rw [hlead, ← hwords]
      exact hphrase
  complete s e ws hs hk hphrase := by
    generalize hws : s.cursor.wordsAhead g.dialect = ws₀ at hphrase
    cases hphrase with
    | @mk _ ws' term hterm =>
    have hlead : s.cursor.peekWord.toPrefixOp g.dialect = g.dialect.prefixes.leading? ws₀ := by
      rw [← hws]
      exact hs.spelled?_peekWord _
    have hlead' : g.dialect.prefixes.leading? (s.cursor.skipSpace.wordsAhead g.dialect) =
        g.dialect.prefixes.leading? ws₀ := by
      rw [wordsAhead_skipSpace hs, hws]
    obtain ⟨ls, hpass, hwords⟩ := hs.skipSpace.passes_past (.inl hlead')
    have hs₁ := hpass.tidy hs.skipSpace
    rw [wordsAhead_skipSpace hs, hws] at hwords
    rw [← hwords] at hterm
    -- the term is ahead past the prefix operator
    obtain ⟨t, hrun, hrest⟩ := (reads_termWith h).complete
      { s with
        cursor := if (g.dialect.prefixes.leading? ws₀).isSome then s.cursor.skipSpace.skipWord
          else s.cursor.skipSpace } hs₁ hk hterm
    have hreach := ((reads_termWith h).sound hrun hs₁ hk).1
    have ht := hreach.tidy hs₁
    have hsettled : t.cursor.skipSpace = t.cursor := skipSpace_of_settled hreach.settled
    -- the words after the term tell the postfix operator
    have hafter : g.postfixOp? t.cursor.skipSpace = Phrase.postfixOp? g.dialect ws' := by
      rw [hsettled, ht.postfixOp?_eq, hrest]
    have hpost := Phrase.postfixOp?_cases g.dialect ws'
    rw [← hrest] at hpost
    obtain ⟨ns, hpass'', hwords''⟩ := ht.passes_past hpost
    refine ⟨_, operandWith_eq_ok_iff.2 ⟨_, term, t, _, hlead, hrun, hafter, rfl, rfl⟩, ?_⟩
    rw [hsettled, wordsAhead_skipSpace, ← hrest, hwords'']
    rw [← hrest]
    exact hpass''.tidy ht

end Operation

end FlatExpr.Grammar
