import FlatExpr.Proofs.Operations

/-!
# Sequences

Only the rule for sequences depends on white space: between terms without another separator a gap is
one. The rule learns of a gap from the lexeme behind the cursor, after the gap was passed. On tokens
this means that what a term takes ends in a gap (`Phrase.Leads`), and it does not matter where the
rule stands, since the words after the term fix where the term ends (`eq_of_reduceOption_eq`).

So the rule reads a sequence without regard to the gaps (`Phrase.Sequence`) or one by white space
(`Phrase.SpacedSequence`), and nothing else (`sound_sequence`, `complete_sequence`).
-/

namespace FlatExpr

open Rule Cursor

/-! ## Gaps -/

section Gaps

variable {ts us vs : List (Option Text)}

/-- Tokens without a word that do not start with a gap are none. -/
theorem eq_nil_of_reduceOption (hsettled : ts.head? ≠ some none) (h : ts.reduceOption = []) :
    ts = [] := by
  match ts with
  | [] => rfl
  | none :: ts => exact absurd rfl hsettled
  | some t :: ts => rw [List.reduceOption_cons_of_some] at h; cases h

/-- Of the ways to cut some tokens, only one leaves given words and does not leave a gap first. -/
theorem eq_of_reduceOption_eq {us' vs' : List (Option Text)} (happend : us ++ vs = us' ++ vs')
    (h : vs.reduceOption = vs'.reduceOption) (hsettled : vs.head? ≠ some none)
    (hsettled' : vs'.head? ≠ some none) : us = us' ∧ vs = vs' := by
  -- one of the two rests ends in the other, with no word before it
  have hfront : ∀ {front rest rest' : List (Option Text)}, rest' = front ++ rest →
      rest'.reduceOption = rest.reduceOption → rest'.head? ≠ some none → front = [] := by
    intro front rest rest' hrest' heq hhead
    have hnil : front.reduceOption = [] := by
      rw [hrest', List.reduceOption_append] at heq
      exact List.append_left_eq_self.1 heq
    apply eq_nil_of_reduceOption _ hnil
    intro hgap
    apply hhead
    rw [hrest', List.head?_append, hgap]
    rfl
  rcases List.append_eq_append_iff.1 happend with ⟨front, hus, hvs⟩ | ⟨front, hus, hvs⟩
  · obtain rfl := hfront hvs h hsettled
    exact ⟨by rw [hus, List.append_nil], hvs⟩
  · obtain rfl := hfront hvs h.symm hsettled'
    exact ⟨by rw [hus, List.append_nil], hvs.symm⟩

end Gaps

namespace Cursor

variable {d : Dialect} {c : Cursor}

/-- Where the next lexeme is not white space, the tokens ahead do not start with a gap. -/
theorem head?_tokensAhead (h : c.peek.isWhitespace = false) :
    (c.tokensAhead d).head? ≠ some none := by
  unfold tokensAhead textsAhead
  cases hahead : c.ahead with
  | nil => exact nofun
  | cons l ls =>
    rw [peek_of_ahead hahead, Lexeme.isWhitespace_eq] at h
    simp [tokens, Scan.passed, Scan.emit, h]

/-- At a word or at the end there are no tokens ahead exactly when there are no words. -/
theorem tokensAhead_eq_nil_iff (h : c.peek.isWhitespace = false) :
    c.tokensAhead d = [] ↔ c.wordsAhead d = [] := by
  constructor
  · intro hnil
    rw [← reduceOption_tokensAhead, hnil]
    rfl
  · intro hnil
    exact eq_nil_of_reduceOption (head?_tokensAhead h) hnil

/-- Where white space was passed, a step back stands before it, and passing it again returns. -/
theorem Tidy.backSpace_of_last (hc : c.Tidy) (h : c.last.isWhitespace = true) :
    c.backSpace.peek = c.last ∧ c.backSpace.skipSpace = c := by
  cases hbehind : c.behind with
  | nil =>
    have hlast : c.last = c.terminal := by unfold last; rw [hbehind]
    rw [hlast, Lexeme.isWhitespace_eq, hc.terminal] at h
    cases h
  | cons l ls =>
    have hlast : c.last = l := by unfold last; rw [hbehind]
    have hback : c.backSpace = { c with behind := ls, ahead := l :: c.ahead } := by
      unfold backSpace back
      rw [if_pos h, hbehind]
    have hpeek : c.backSpace.peek = l := by rw [hback]; rfl
    refine ⟨by rw [hpeek, hlast], ?_⟩
    -- the lexeme that was put ahead is white space, so it is passed again
    unfold Cursor.skipSpace
    rw [hpeek, ← hlast, if_pos h, hback]
    unfold skip
    dsimp only
    rw [← hbehind]

end Cursor

/-! ## Terms by white space -/

namespace Grammar

variable {g : Grammar} {k : Nat}

section Items

variable {operand : Rule Expr} {phrase : Reading Expr} {s s' : ReadState} {e : Expr}

/-- What a successful rule took ends in a gap exactly when it stands after white space. -/
theorem leads_of_sound {r : Rule Expr} (h : Reads g.dialect k r phrase)
    (hrun : r s = (.ok e, s')) (hs : s.cursor.Tidy) (hk : s.depth = k) :
    ∃ taken, Phrase.Leads phrase (s.cursor.tokensAhead g.dialect) e taken
        (s'.cursor.tokensAhead g.dialect) ∧
      (s'.cursor.last.isWhitespace = true ↔ taken.getLast? = some none) := by
  obtain ⟨hreach, hphrase⟩ := h.sound hrun hs hk
  obtain ⟨ls, hne, hpass⟩ := hreach.passes
  exact ⟨tokens g.dialect (ls.map Lexeme.text),
    ⟨hpass.tokensAhead_eq, hphrase, head?_tokensAhead hreach.settled⟩,
    hpass.isWhitespace_last_iff hne⟩

/-- Tokens that start with a phrase make the rule succeed and take the same tokens. -/
theorem complete_of_leads {r : Rule Expr} (h : Reads g.dialect k r phrase) (hs : s.cursor.Tidy)
    (hk : s.depth = k) {taken ts : List (Option Text)}
    (hleads : Phrase.Leads phrase (s.cursor.tokensAhead g.dialect) e taken ts) :
    ∃ s', r s = (.ok e, s') ∧ s'.cursor.tokensAhead g.dialect = ts ∧
      (s'.cursor.last.isWhitespace = true ↔ taken.getLast? = some none) := by
  obtain ⟨s', hrun, hrest⟩ := h.complete s hs hk hleads.phrase
  obtain ⟨taken', hleads', hlast⟩ := leads_of_sound h hrun hs hk
  -- both cuts of the tokens leave the same words, so they are one
  have happend : taken' ++ s'.cursor.tokensAhead g.dialect = taken ++ ts := by
    rw [← hleads'.split, hleads.split]
  obtain ⟨rfl, htokens⟩ :=
    eq_of_reduceOption_eq happend hrest hleads'.settled hleads.settled
  exact ⟨s', hrun, htokens, hlast⟩

/-- After a term that stands before a gap, the rule goes back over the gap and passes it again. -/
theorem itemWith_space_of_gap {t : ReadState} (hrun : operand s = (.ok e, t)) (ht : t.cursor.Tidy)
    (hallowed : g.dialect.separators.allows .space = true)
    (hgap : t.cursor.last.isWhitespace = true) :
    g.itemWith operand .space s = (.ok (e, !t.cursor.atEnd), t) := by
  obtain ⟨hpeek, hskip⟩ := ht.backSpace_of_last hgap
  have hfound : t.cursor.backSpace.peek.toSeparator g.dialect = some .space := by
    rw [hpeek]
    unfold Lexeme.toSeparator Allowed.permit
    rw [if_pos hgap]
    exact Option.filter_eq_some_iff.2 ⟨rfl, hallowed⟩
  have hlexeme : separatorLexeme .space t =
      (.ok t.cursor.backSpace.peek, { t with cursor := t.cursor.backSpace }) := rfl
  rw [itemWith, bind_apply, hrun]
  dsimp only
  rw [bind_apply, hlexeme]
  dsimp only
  rw [hfound]
  show (Except.ok (e, !t.cursor.backSpace.skipSpace.atEnd),
    { t with cursor := t.cursor.backSpace.skipSpace }) = _
  rw [hskip]

/-- After a term without a gap, another separator is refused and anything else ends the sequence. -/
theorem itemWith_space_of_no_gap {t : ReadState} (hrun : operand s = (.ok e, t))
    (ht : t.cursor.Tidy) (hsettled : t.cursor.peek.isWhitespace = false)
    (hgap : t.cursor.last.isWhitespace = false) {item : Expr × Bool} :
    g.itemWith operand .space s = (.ok item, s') ↔
      g.dialect.separators.leading? (t.cursor.wordsAhead g.dialect) = none ∧ (e, false) = item ∧
        t = s' := by
  have hback : t.cursor.backSpace = t.cursor := by
    unfold backSpace
    rw [hgap]
    rfl
  have hlexeme : separatorLexeme .space t = (.ok t.cursor.peek, t) := by
    show (Except.ok t.cursor.backSpace.peek, { t with cursor := t.cursor.backSpace }) = _
    rw [hback]
  have hpeek : t.cursor.peekWord = t.cursor.peek := by
    unfold peekWord
    rw [skipSpace_of_settled hsettled]
  have hfound := ht.toSeparator_peekWord (d := g.dialect)
  rw [hpeek] at hfound
  rw [itemWith, bind_apply, hrun]
  dsimp only
  rw [bind_apply, hlexeme]
  dsimp only
  rw [hfound]
  cases hlead : g.dialect.separators.leading? (t.cursor.wordsAhead g.dialect) with
  | none =>
    dsimp only
    rw [pure_eq_ok_iff]
    exact ⟨fun h => ⟨rfl, h⟩, fun h => h.2⟩
  | some found =>
    -- white space is not a word, so the word that leads is another separator
    have hne : found ≠ .space := by
      intro heq
      have hsymbolic := ht.isWhitespace_of_leading hlead
      rw [heq] at hsymbolic
      cases hsymbolic
    dsimp only
    rw [if_neg hne, fail_eq_ok_iff]
    exact ⟨False.elim, fun h => absurd h.1 (Option.some_ne_none found)⟩

/-- The rounds of a sequence by white space read its terms. -/
theorem sound_spacedItems (h : Reads g.dialect k operand phrase)
    (hallowed : g.dialect.separators.allows .space = true) {n : Nat} {es : List Expr}
    (hrun : g.itemsWith operand .space n s = (.ok es, s')) (hs : s.cursor.Tidy) (hk : s.depth = k)
    (hn : s.cursor.ahead.length < n) :
    s.Reaches g.dialect s' ∧ Phrase.SpacedItems g.dialect phrase
      (s.cursor.tokensAhead g.dialect) es (s'.cursor.tokensAhead g.dialect) := by
  induction n generalizing s es with
  | zero => omega
  | succ n ih =>
    rw [itemsWith, bind_eq_ok_iff] at hrun
    obtain ⟨item, s₁, hitem, hrest⟩ := hrun
    obtain ⟨e, t, hterm, -⟩ := bind_eq_ok_iff.1 hitem
    have hreach := (h.sound hterm hs hk).1
    have ht := hreach.tidy hs
    obtain ⟨taken, hleads, hlast⟩ := leads_of_sound h hterm hs hk
    cases hgap : t.cursor.last.isWhitespace with
    | true =>
      rw [itemWith_space_of_gap hterm ht hallowed hgap, Prod.mk.injEq, Except.ok.injEq] at hitem
      obtain ⟨rfl, rfl⟩ := hitem
      have hend : t.cursor.atEnd = true ↔ t.cursor.tokensAhead g.dialect = [] := by
        rw [tokensAhead_eq_nil_iff hreach.settled]
        exact ht.isTerminal_peekWord_iff g.dialect
      by_cases hatEnd : t.cursor.atEnd = true
      · -- a gap at the end of the source is not a separator
        simp only [hatEnd, Bool.not_true, Bool.false_eq_true, if_false] at hrest
        obtain ⟨rfl, rfl⟩ := pure_eq_ok_iff.1 hrest
        exact ⟨hreach, .last hleads (.inl (hend.1 hatEnd))⟩
      · simp only [hatEnd, Bool.not_false, if_true] at hrest
        obtain ⟨others, s'', hothers, hpure⟩ := bind_eq_ok_iff.1 hrest
        obtain ⟨rfl, rfl⟩ := pure_eq_ok_iff.1 hpure
        have hlength := hreach.length_lt
        obtain ⟨hreach', hitems⟩ := ih hothers ht (by rw [hreach.depth, hk]) (by omega)
        exact ⟨hreach.trans hreach',
          .more hleads (hlast.1 hgap) (fun hnil => hatEnd (hend.2 hnil)) hitems⟩
    | false =>
      obtain ⟨hstop, rfl, rfl⟩ := (itemWith_space_of_no_gap hterm ht hreach.settled hgap).1 hitem
      obtain ⟨rfl, rfl⟩ := pure_eq_ok_iff.1 hrest
      refine ⟨hreach, .last hleads (.inr ⟨?_, hstop⟩)⟩
      rw [Ne, ← hlast, hgap]
      exact Bool.false_ne_true

/-- Terms with gaps between them make the rounds of a sequence by white space succeed. -/
theorem complete_spacedItems (h : Reads g.dialect k operand phrase)
    (hallowed : g.dialect.separators.allows .space = true) {n : Nat} {es : List Expr}
    {ts ts' : List (Option Text)} (hitems : Phrase.SpacedItems g.dialect phrase ts es ts')
    (hs : s.cursor.Tidy) (hk : s.depth = k) (hts : s.cursor.tokensAhead g.dialect = ts)
    (hn : s.cursor.ahead.length < n) :
    ∃ s', g.itemsWith operand .space n s = (.ok es, s') ∧
      s'.cursor.tokensAhead g.dialect = ts' := by
  obtain ⟨n, rfl⟩ : ∃ m, n = m + 1 := ⟨n - 1, by omega⟩
  induction hitems generalizing s n with
  | @last ts taken ts' e hleads hstop =>
    rw [← hts] at hleads
    obtain ⟨t, hterm, hrest, hlast⟩ := complete_of_leads h hs hk hleads
    have hreach := (h.sound hterm hs hk).1
    have ht := hreach.tidy hs
    refine ⟨t, ?_, hrest⟩
    rw [itemsWith, bind_eq_ok_iff]
    refine ⟨(e, false), t, ?_, pure_eq_ok_iff.2 ⟨rfl, rfl⟩⟩
    cases hgap : t.cursor.last.isWhitespace with
    | true =>
      -- a gap at the end of the source is not a separator
      have hnil : t.cursor.tokensAhead g.dialect = [] := by
        rw [hrest]
        exact hstop.resolve_right fun hstop => hstop.1 (hlast.1 hgap)
      have hend : t.cursor.atEnd = true :=
        (ht.isTerminal_peekWord_iff g.dialect).2 ((tokensAhead_eq_nil_iff hreach.settled).1 hnil)
      rw [itemWith_space_of_gap hterm ht hallowed hgap, hend]
      rfl
    | false =>
      rw [itemWith_space_of_no_gap hterm ht hreach.settled hgap]
      refine ⟨?_, rfl, rfl⟩
      rw [← reduceOption_tokensAhead, hrest]
      rcases hstop with rfl | ⟨-, hstop⟩
      · exact Allowed.leading?_nil _
      · exact hstop
  | @more ts taken ts' ts'' e es hleads hgap hcontinues hitems ih =>
    rw [← hts] at hleads
    obtain ⟨t, hterm, hrest, hlast⟩ := complete_of_leads h hs hk hleads
    have hreach := (h.sound hterm hs hk).1
    have ht := hreach.tidy hs
    have hlength := hreach.length_lt
    have hend : t.cursor.atEnd = false := by
      rw [← Bool.not_eq_true]
      intro hend
      apply hcontinues
      rw [← hrest, tokensAhead_eq_nil_iff hreach.settled]
      exact (ht.isTerminal_peekWord_iff g.dialect).1 hend
    obtain ⟨m, rfl⟩ : ∃ m, n = m + 1 := ⟨n - 1, by omega⟩
    obtain ⟨s', hothers, hdone⟩ := ih ht (by rw [hreach.depth, hk]) hrest m (by omega)
    refine ⟨s', ?_, hdone⟩
    rw [itemsWith, bind_eq_ok_iff]
    refine ⟨(e, true), t, ?_, bind_eq_ok_iff.2 ⟨es, s', hothers, pure_eq_ok_iff.2 ⟨rfl, rfl⟩⟩⟩
    rw [itemWith_space_of_gap hterm ht hallowed (hlast.2 hgap), hend]
    rfl

end Items

/-! ## Sequences -/

section Sequence

variable {s s' : ReadState} {e : Expr}

/-- A successful run of the rule for sequences: what follows the first operation decides on whether
there are further terms. -/
theorem sequence_eq_ok_iff :
    g.sequence s = (.ok e, s') ↔ ∃ first t, g.operation s = (.ok first, t) ∧
      ((first.isSequence = true ∧ first = e ∧ t = s') ∨
        (first.isSequence = false ∧
          ((∃ separator, t.cursor.peekWord.toSeparator g.dialect = some separator ∧
              g.sequenceFrom first separator { t with cursor := t.cursor.skipWord } =
                (.ok e, s')) ∨
            (t.cursor.peekWord.toSeparator g.dialect = none ∧
              t.cursor.peekWord.isTerminal = true ∧ first = e ∧ t = s') ∨
            (t.cursor.peekWord.toSeparator g.dialect = none ∧
              t.cursor.peekWord.isTerminal = false ∧ t.cursor.last.isWhitespace = true ∧
              g.dialect.separators.allows .space = true ∧
              g.sequenceFrom first .space t = (.ok e, s'))))) := by
  simp only [sequence, bind_eq_ok_iff]
  constructor
  · rintro ⟨first, t, hfirst, hrun⟩
    refine ⟨first, t, hfirst, ?_⟩
    cases hsequence : first.isSequence with
    | true =>
      rw [if_pos hsequence, pure_eq_ok_iff] at hrun
      exact .inl ⟨rfl, hrun⟩
    | false =>
    simp only [hsequence, Bool.false_eq_true, if_false, bind_eq_ok_iff, look_eq_ok_iff] at hrun
    obtain ⟨_, _, ⟨rfl, rfl⟩, l, _, ⟨rfl, rfl⟩, hnext⟩ := hrun
    refine .inr ⟨rfl, ?_⟩
    cases hfound : t.cursor.peekWord.toSeparator g.dialect with
    | some separator =>
      simp only [hfound, bind_eq_ok_iff, move_eq_ok_iff] at hnext
      obtain ⟨_, _, rfl, hfrom⟩ := hnext
      exact .inl ⟨separator, rfl, hfrom⟩
    | none =>
      simp only [hfound] at hnext
      split_ifs at hnext with hterminal hspace
      · exact .inr (.inl ⟨rfl, hterminal, pure_eq_ok_iff.1 hnext⟩)
      · obtain ⟨hgap, hallowed⟩ := Bool.and_eq_true_iff.1 hspace
        exact .inr (.inr ⟨rfl, by simpa using hterminal, hgap, hallowed, hnext⟩)
      · exact (fail_eq_ok_iff.1 hnext).elim
  · rintro ⟨first, t, hfirst, hcases⟩
    refine ⟨first, t, hfirst, ?_⟩
    rcases hcases with ⟨hsequence, rfl, rfl⟩ | ⟨hsequence, hcases⟩
    · rw [if_pos hsequence]
      exact pure_eq_ok_iff.2 ⟨rfl, rfl⟩
    · simp only [hsequence, Bool.false_eq_true, if_false]
      refine bind_eq_ok_iff.2 ⟨_, t, look_eq_ok_iff.2 ⟨rfl, rfl⟩,
        bind_eq_ok_iff.2 ⟨_, t, look_eq_ok_iff.2 ⟨rfl, rfl⟩, ?_⟩⟩
      rcases hcases with ⟨separator, hfound, hfrom⟩ | ⟨hfound, hterminal, rfl, rfl⟩ |
        ⟨hfound, hterminal, hgap, hallowed, hfrom⟩
      · simp only [hfound]
        exact bind_eq_ok_iff.2 ⟨(), _, move_eq_ok_iff.2 rfl, hfrom⟩
      · simp only [hfound, hterminal, if_true]
        exact pure_eq_ok_iff.2 ⟨rfl, rfl⟩
      · simp only [hfound, hterminal, hgap, hallowed, Bool.and_self, Bool.false_eq_true, if_true,
          if_false]
        exact hfrom

/-- A successful rule for sequences has read a sequence of one of the two kinds. -/
theorem sound_sequence (hrun : g.sequence s = (.ok e, s')) (hs : s.cursor.Tidy)
    (hk : s.depth = k) :
    s.Reaches g.dialect s' ∧
      (Phrase.Sequence g.dialect (g.maxDepth - k) (s.cursor.wordsAhead g.dialect) e
          (s'.cursor.wordsAhead g.dialect) ∨
        Phrase.SpacedSequence g.dialect (g.maxDepth - k) (s.cursor.tokensAhead g.dialect) e
          (s'.cursor.tokensAhead g.dialect)) := by
  obtain ⟨first, t, hfirst, hcases⟩ := sequence_eq_ok_iff.1 hrun
  obtain ⟨hreach, hphrase⟩ := (reads_operation g k).sound hfirst hs hk
  have ht := hreach.tidy hs
  have htk : t.depth = k := by rw [hreach.depth, hk]
  have hterminal := ht.isTerminal_peekWord_iff g.dialect
  rw [ht.toSeparator_peekWord] at hcases
  rcases hcases with ⟨hsequence, rfl, rfl⟩ | ⟨hsequence, ⟨separator, hlead, hfrom⟩ |
    ⟨-, hend, rfl, rfl⟩ | ⟨hstop, hend, hgap, hallowed, hfrom⟩⟩
  · exact ⟨hreach, .inl (.whole hphrase hsequence)⟩
  · have hsymbolic := ht.isWhitespace_of_leading hlead
    obtain ⟨es, hitems, rfl⟩ := sequenceFromWith_eq_ok_iff.1 hfrom
    obtain ⟨ls, -, hpass, hwords⟩ := ht.passes_leading hlead
    obtain ⟨hreach', hitems'⟩ := sound_itemsWith (reads_operand g k) hsymbolic hitems
      (hpass.tidy ht) htk (Nat.lt_succ_self _)
    rw [hwords] at hitems'
    exact ⟨hreach.trans (hreach'.of_passes hpass),
      .inl (.separated hphrase hsequence hlead hsymbolic hitems')⟩
  · rw [hterminal.1 hend] at hphrase ⊢
    exact ⟨hreach, .inl (.single hphrase)⟩
  · obtain ⟨es, hitems, rfl⟩ := sequenceFromWith_eq_ok_iff.1 hfrom
    obtain ⟨taken, hleads, hlast⟩ := leads_of_sound (reads_operation g k) hfirst hs hk
    obtain ⟨hreach', hitems'⟩ := sound_spacedItems (reads_operand g k) hallowed hitems ht htk
      (Nat.lt_succ_self _)
    have hcontinues : t.cursor.tokensAhead g.dialect ≠ [] := by
      rw [Ne, tokensAhead_eq_nil_iff hreach.settled, ← hterminal, hend]
      exact Bool.false_ne_true
    exact ⟨hreach.trans hreach',
      .inr (.mk hleads hsequence hallowed (hlast.1 hgap) hcontinues hstop hitems')⟩

/-- A sequence without regard to the gaps makes the rule succeed. -/
theorem complete_sequence (hs : s.cursor.Tidy) (hk : s.depth = k) {ws : List Text}
    (hsequence : Phrase.Sequence g.dialect (g.maxDepth - k) (s.cursor.wordsAhead g.dialect) e ws) :
    ∃ s', g.sequence s = (.ok e, s') ∧ s'.cursor.wordsAhead g.dialect = ws := by
  simp only [sequence_eq_ok_iff]
  generalize hws : s.cursor.wordsAhead g.dialect = ws₀ at hsequence
  cases hsequence with
  | whole hphrase halready =>
    rw [← hws] at hphrase
    obtain ⟨t, hrun, hrest⟩ := (reads_operation g k).complete s hs hk hphrase
    exact ⟨t, ⟨e, t, hrun, .inl ⟨halready, rfl, rfl⟩⟩, hrest⟩
  | single hphrase =>
    rw [← hws] at hphrase
    obtain ⟨t, hrun, hrest⟩ := (reads_operation g k).complete s hs hk hphrase
    refine ⟨t, ⟨e, t, hrun, ?_⟩, hrest⟩
    cases halready : e.isSequence with
    | true => exact .inl ⟨rfl, rfl, rfl⟩
    | false =>
      have ht := ((reads_operation g k).sound hrun hs hk).1.tidy hs
      have hfound : t.cursor.peekWord.toSeparator g.dialect = none := by
        rw [ht.toSeparator_peekWord, hrest]
        exact Allowed.leading?_nil _
      have hterminal : t.cursor.peekWord.isTerminal = true :=
        (ht.isTerminal_peekWord_iff g.dialect).2 hrest
      exact .inr ⟨rfl, .inr (.inl ⟨hfound, hterminal, rfl, rfl⟩)⟩
  | @separated _ ws' _ first separator es hphrase hsingle hlead hsymbolic hitems =>
    rw [← hws] at hphrase
    obtain ⟨t, hrun, hrest⟩ := (reads_operation g k).complete s hs hk hphrase
    have hreach := ((reads_operation g k).sound hrun hs hk).1
    have ht := hreach.tidy hs
    have hlead' : g.dialect.separators.leading? (t.cursor.wordsAhead g.dialect) =
        some separator := by rw [hrest, hlead]
    have hfound : t.cursor.peekWord.toSeparator g.dialect = some separator := by
      rw [ht.toSeparator_peekWord, hlead']
    obtain ⟨ls, -, hpass, hwords⟩ := ht.passes_leading hlead'
    obtain ⟨s', hitems', hend⟩ := complete_itemsWith (s := { t with cursor := t.cursor.skipWord })
      (reads_operand g k) hsymbolic hitems (hpass.tidy ht) (by rw [← hk, ← hreach.depth])
      (by rw [hwords, hrest]) (Nat.lt_succ_self _)
    exact ⟨s', ⟨first, t, hrun, .inr ⟨hsingle, .inl ⟨separator, hfound,
      sequenceFromWith_eq_ok_iff.2 ⟨es, hitems', rfl⟩⟩⟩⟩, hend⟩

/-- A sequence by white space makes the rule succeed. -/
theorem complete_spacedSequence (hs : s.cursor.Tidy) (hk : s.depth = k)
    {ts : List (Option Text)} (hsequence : Phrase.SpacedSequence g.dialect (g.maxDepth - k)
      (s.cursor.tokensAhead g.dialect) e ts) :
    ∃ s', g.sequence s = (.ok e, s') ∧ s'.cursor.tokensAhead g.dialect = ts := by
  generalize hts : s.cursor.tokensAhead g.dialect = ts₀ at hsequence
  cases hsequence with
  | @mk taken ts' _ first es hleads hsingle hallowed hgap hcontinues hstop hitems =>
  rw [← hts] at hleads
  obtain ⟨t, hrun, hrest, hlast⟩ := complete_of_leads (reads_operation g k) hs hk hleads
  have hreach := ((reads_operation g k).sound hrun hs hk).1
  have ht := hreach.tidy hs
  have hfound : t.cursor.peekWord.toSeparator g.dialect = none := by
    rw [ht.toSeparator_peekWord, ← reduceOption_tokensAhead, hrest, hstop]
  have hterminal : t.cursor.peekWord.isTerminal = false := by
    rw [← Bool.not_eq_true, ht.isTerminal_peekWord_iff g.dialect,
      ← tokensAhead_eq_nil_iff hreach.settled, hrest]
    exact hcontinues
  obtain ⟨s', hitems', hend⟩ := complete_spacedItems (reads_operand g k) hallowed hitems ht
    (by rw [hreach.depth, hk]) hrest (Nat.lt_succ_self _)
  exact ⟨s', sequence_eq_ok_iff.2 ⟨first, t, hrun, .inr ⟨hsingle, .inr (.inr ⟨hfound, hterminal,
    hlast.2 hgap, hallowed, sequenceFromWith_eq_ok_iff.2 ⟨es, hitems', rfl⟩⟩)⟩⟩, hend⟩

/-- A source is accepted as a sequence exactly when its words are one, or its tokens are one by
white space. -/
theorem parseSequence_iff_phrase {source : Text} : g.parseSequence source = .ok e ↔
    Phrase.Sequence g.dialect g.maxDepth (words g.dialect (Lexeme.texts source)) e [] ∨
      Phrase.SpacedSequence g.dialect g.maxDepth (tokens g.dialect (Lexeme.texts source)) e [] := by
  have hs : (startOf source).cursor.Tidy := tidy_ofSource source
  have htokens : (startOf source).cursor.tokensAhead g.dialect =
      tokens g.dialect (Lexeme.texts source) := by
    show tokens g.dialect ((Lexeme.all source).map Lexeme.text) = _
    rw [Lexeme.map_text_all]
  rw [parseSequence, parseWhole_eq_ok_iff, ← wordsAhead_startOf, ← htokens]
  constructor
  · rintro ⟨s', hrun, hend⟩
    obtain ⟨hreach, hsequence⟩ := sound_sequence hrun hs rfl
    rw [checkEnd_eq_ok_iff (hreach.tidy hs)] at hend
    rw [(tokensAhead_eq_nil_iff hreach.settled).2 hend, hend] at hsequence
    exact hsequence
  · intro hsequence
    have hrun : ∃ s', g.sequence (startOf source) = (.ok e, s') ∧
        s'.cursor.wordsAhead g.dialect = [] := by
      rcases hsequence with hsequence | hsequence
      · exact complete_sequence hs rfl hsequence
      · obtain ⟨s', hrun, hrest⟩ := complete_spacedSequence hs rfl hsequence
        exact ⟨s', hrun, by rw [← reduceOption_tokensAhead, hrest]; rfl⟩
    obtain ⟨s', hrun, hrest⟩ := hrun
    exact ⟨s', hrun, (checkEnd_eq_ok_iff ((sound_sequence hrun hs rfl).1.tidy hs)).2 hrest⟩

end Sequence

end Grammar

end FlatExpr
