import FlatExpr.Parser
import FlatExpr.Proofs.Terms

/-!
# Operations

Runs of operands are read by loops that count down from the number of lexemes ahead. That is enough
rounds, since each passes a lexeme (`ReadState.Reaches.length_lt`), so the loops read exactly the
links of a chain (`sound_linksWith`, `complete_linksWith`) and the terms of a sequence
(`sound_itemsWith`, `complete_itemsWith`).

An operation with some levels of nesting left then reads the operations with as many levels
(`reads_operationWithin`, by induction on the levels), and `reads_operation`, `reads_term` and the
like are the results for the grammar as it stands. A whole source is accepted exactly when its words
are one phrase (`parseWhole_iff_phrase`), or phrases one after the other (`parseMany_iff_phrases`).
-/

namespace FlatExpr.Grammar

open Rule Cursor

variable {g : Grammar} {k : Nat}

/-! ## Chains -/

section Runs

variable {operand : Rule Expr} {phrase : Reading Expr} {s s' : ReadState} {e : Expr}

/-- One round of a chain: the operand after the operator that leads, and the operator that follows
the operand. -/
theorem linkWith_eq_ok_iff {following : Option InfixOp} :
    g.linkWith operand s = (.ok (e, following), s') ↔ ∃ t,
      operand { s with cursor := s.cursor.skipWord } = (.ok e, t) ∧
      t.cursor.peekWord.toInfixOp g.dialect = following ∧
      { t with cursor := t.cursor.skipSpace } = s' := by
  simp only [linkWith, bind_eq_ok_iff, move_eq_ok_iff, look_eq_ok_iff, pure_eq_ok_iff]
  constructor
  · rintro ⟨_, s₁, rfl, right, t, hright, _, s₂, rfl, op, s₃, ⟨hop, rfl⟩, heq, rfl⟩
    cases heq
    exact ⟨t, hright, hop, rfl⟩
  · rintro ⟨t, hright, hop, rfl⟩
    exact ⟨(), _, rfl, e, t, hright, (), _, rfl, following, _, ⟨hop, rfl⟩, rfl, rfl⟩

/-- What one round of a chain reads. -/
theorem sound_linkWith (h : Reads g.dialect k operand phrase) {following : Option InfixOp}
    (hrun : g.linkWith operand s = (.ok (e, following), s')) (hs : s.cursor.Tidy)
    (hk : s.depth = k) {op : InfixOp}
    (hop : g.dialect.infixes.leading? (s.cursor.wordsAhead g.dialect) = some op) :
    s.Reaches g.dialect s' ∧
      phrase (s.cursor.wordsAhead g.dialect).tail e (s'.cursor.wordsAhead g.dialect) ∧
      g.dialect.infixes.leading? (s'.cursor.wordsAhead g.dialect) = following := by
  obtain ⟨t, hright, hfollowing, rfl⟩ := linkWith_eq_ok_iff.1 hrun
  obtain ⟨ls, -, hpass, hwords⟩ := hs.passes_leading hop
  obtain ⟨hreach, hphrase⟩ := h.sound hright (hpass.tidy hs) hk
  have ht := hreach.tidy (hpass.tidy hs)
  have hsettled : t.cursor.skipSpace = t.cursor := skipSpace_of_settled hreach.settled
  rw [hwords] at hphrase
  rw [hsettled]
  refine ⟨hreach.of_passes hpass, hphrase, ?_⟩
  rw [← hfollowing, ← ht.spelled?_peekWord]
  rfl

/-- A round of a chain succeeds when an operand is ahead. -/
theorem complete_linkWith (h : Reads g.dialect k operand phrase) (hs : s.cursor.Tidy)
    (hk : s.depth = k) {op : InfixOp} {ws : List Text}
    (hop : g.dialect.infixes.leading? (s.cursor.wordsAhead g.dialect) = some op)
    (hphrase : phrase (s.cursor.wordsAhead g.dialect).tail e ws) :
    ∃ s', g.linkWith operand s = (.ok (e, g.dialect.infixes.leading? ws), s') ∧
      s'.cursor.wordsAhead g.dialect = ws := by
  obtain ⟨ls, -, hpass, hwords⟩ := hs.passes_leading hop
  have hs₁ := hpass.tidy hs
  rw [← hwords] at hphrase
  obtain ⟨t, hright, hrest⟩ := h.complete { s with cursor := s.cursor.skipWord } hs₁ hk hphrase
  have ht := (h.sound hright hs₁ hk).1.tidy hs₁
  refine ⟨_, linkWith_eq_ok_iff.2 ⟨t, hright, ?_, rfl⟩, ?_⟩
  · rw [← hrest, ← ht.spelled?_peekWord]
    rfl
  · rw [wordsAhead_skipSpace ht, hrest]

/-- The rounds of a chain read its links, if they are as many as the lexemes ahead. -/
theorem sound_linksWith (h : Reads g.dialect k operand phrase) {n : Nat} {op : InfixOp}
    {rest : List (InfixOp × Expr)} (hrun : g.linksWith operand n op s = (.ok rest, s'))
    (hs : s.cursor.Tidy) (hk : s.depth = k)
    (hop : g.dialect.infixes.leading? (s.cursor.wordsAhead g.dialect) = some op)
    (hn : s.cursor.ahead.length ≤ n) :
    s.Reaches g.dialect s' ∧ Phrase.Links g.dialect phrase op
      (s.cursor.wordsAhead g.dialect).tail rest (s'.cursor.wordsAhead g.dialect) := by
  induction n generalizing s op rest with
  | zero =>
    -- the operator that leads is a lexeme ahead, so there is a round left
    obtain ⟨ls, hne, hpass, -⟩ := hs.passes_leading hop
    have hlength := hpass.length_lt hne
    omega
  | succ n ih =>
    rw [linksWith, bind_eq_ok_iff] at hrun
    obtain ⟨⟨right, following⟩, t, hlink, hrest⟩ := hrun
    obtain ⟨hreach, hphrase, hfollowing⟩ := sound_linkWith h hlink hs hk hop
    cases following with
    | none =>
      obtain ⟨rfl, rfl⟩ := pure_eq_ok_iff.1 hrest
      exact ⟨hreach, .last hphrase hfollowing⟩
    | some op' =>
      -- the next round starts at the operator that follows, with fewer lexemes ahead
      obtain ⟨others, s'', hothers, hend⟩ := bind_eq_ok_iff.1 hrest
      obtain ⟨rfl, rfl⟩ := pure_eq_ok_iff.1 hend
      have hlength := hreach.length_lt
      obtain ⟨hreach', hlinks⟩ := ih hothers (hreach.tidy hs) (by rw [hreach.depth, hk]) hfollowing
        (by omega)
      exact ⟨hreach.trans hreach', .more hphrase hfollowing hlinks⟩

/-- Links ahead make the rounds of a chain succeed, if these are as many as the lexemes ahead. -/
theorem complete_linksWith (h : Reads g.dialect k operand phrase) {n : Nat} {op : InfixOp}
    {rest : List (InfixOp × Expr)} {ws ws' : List Text}
    (hlinks : Phrase.Links g.dialect phrase op ws rest ws') (hs : s.cursor.Tidy)
    (hk : s.depth = k)
    (hop : g.dialect.infixes.leading? (s.cursor.wordsAhead g.dialect) = some op)
    (hws : (s.cursor.wordsAhead g.dialect).tail = ws) (hn : s.cursor.ahead.length ≤ n) :
    ∃ s', g.linksWith operand n op s = (.ok rest, s') ∧ s'.cursor.wordsAhead g.dialect = ws' := by
  induction hlinks generalizing s n with
  | @last op ws ws' e hphrase hstop =>
    rw [← hws] at hphrase
    obtain ⟨t, hlink, hrest⟩ := complete_linkWith h hs hk hop hphrase
    rw [hstop] at hlink
    cases n with
    | zero =>
      -- a round passes a lexeme, so the rounds cannot be used up
      have hlength := (sound_linkWith h hlink hs hk hop).1.length_lt
      omega
    | succ n =>
      refine ⟨t, ?_, hrest⟩
      rw [linksWith, bind_eq_ok_iff]
      exact ⟨_, t, hlink, pure_eq_ok_iff.2 ⟨rfl, rfl⟩⟩
  | @more op op' ws ws' ws'' e rest hphrase hlead hlinks ih =>
    rw [← hws] at hphrase
    obtain ⟨t, hlink, hrest⟩ := complete_linkWith h hs hk hop hphrase
    obtain ⟨hreach, -, hfollowing⟩ := sound_linkWith h hlink hs hk hop
    have hlength := hreach.length_lt
    rw [hlead] at hlink hfollowing
    cases n with
    | zero => omega
    | succ n =>
      obtain ⟨s', hothers, hend⟩ := ih (n := n) (hreach.tidy hs) (by rw [hreach.depth, hk])
        hfollowing (by rw [hrest]) (by omega)
      refine ⟨s', ?_, hend⟩
      rw [linksWith, bind_eq_ok_iff]
      exact ⟨_, t, hlink, bind_eq_ok_iff.2 ⟨rest, s', hothers, pure_eq_ok_iff.2 ⟨rfl, rfl⟩⟩⟩

end Runs

/-! ## Sequences -/

section Items

variable {operand : Rule Expr} {phrase : Reading Expr} {s s' : ReadState} {e : Expr}
  {separator : Separator}

/-- One round of a sequence with a separator other than white space: a term, and the separator after
it if there is one. -/
theorem itemWith_eq_ok_iff (hsep : separator.isWhitespace = false) {more : Bool} :
    g.itemWith operand separator s = (.ok (e, more), s') ↔ ∃ t, operand s = (.ok e, t) ∧
      ((t.cursor.peekWord.toSeparator g.dialect = none ∧ more = false ∧ t = s') ∨
        (t.cursor.peekWord.toSeparator g.dialect = some separator ∧ more = true ∧
          { t with cursor := t.cursor.skipWord } = s')) := by
  have hlexeme : separatorLexeme separator = look Cursor.peekWord := by
    unfold separatorLexeme
    rw [hsep]
    rfl
  simp only [itemWith, hlexeme, hsep, bind_eq_ok_iff, look_eq_ok_iff]
  constructor
  · rintro ⟨term, t, hterm, l, t', ⟨rfl, rfl⟩, hrest⟩
    cases hfound : t.cursor.peekWord.toSeparator g.dialect with
    | none =>
      simp only [hfound, pure_eq_ok_iff] at hrest
      obtain ⟨heq, rfl⟩ := hrest
      cases heq
      exact ⟨t, hterm, .inl ⟨hfound, rfl, rfl⟩⟩
    | some found =>
      simp only [hfound] at hrest
      by_cases heq : found = separator
      · rw [if_pos heq] at hrest
        obtain ⟨_, s₁, hmove, hlook⟩ := bind_eq_ok_iff.1 hrest
        obtain rfl := move_eq_ok_iff.1 hmove
        obtain ⟨ended, s₂, hended, hend⟩ := bind_eq_ok_iff.1 hlook
        obtain ⟨rfl, rfl⟩ := look_eq_ok_iff.1 hended
        obtain ⟨hpair, rfl⟩ := pure_eq_ok_iff.1 hend
        cases hpair
        exact ⟨t, hterm, .inr ⟨by rw [hfound, heq], rfl, rfl⟩⟩
      · rw [if_neg heq] at hrest
        exact (fail_eq_ok_iff.1 hrest).elim
  · rintro ⟨t, hterm, ⟨hfound, rfl, rfl⟩ | ⟨hfound, rfl, rfl⟩⟩
    · refine ⟨e, t, hterm, _, t, ⟨rfl, rfl⟩, ?_⟩
      simp only [hfound]
      exact pure_eq_ok_iff.2 ⟨rfl, rfl⟩
    · refine ⟨e, t, hterm, _, t, ⟨rfl, rfl⟩, ?_⟩
      simp only [hfound, if_true]
      exact bind_eq_ok_iff.2 ⟨(), _, move_eq_ok_iff.2 rfl,
        bind_eq_ok_iff.2 ⟨_, _, look_eq_ok_iff.2 ⟨rfl, rfl⟩, pure_eq_ok_iff.2 ⟨rfl, rfl⟩⟩⟩

/-- The rounds of a sequence read its terms, if there is one round more than lexemes ahead. -/
theorem sound_itemsWith (h : Reads g.dialect k operand phrase)
    (hsep : separator.isWhitespace = false) {n : Nat} {es : List Expr}
    (hrun : g.itemsWith operand separator n s = (.ok es, s')) (hs : s.cursor.Tidy)
    (hk : s.depth = k) (hn : s.cursor.ahead.length < n) :
    s.Reaches g.dialect s' ∧ Phrase.Items g.dialect phrase separator
      (s.cursor.wordsAhead g.dialect) es (s'.cursor.wordsAhead g.dialect) := by
  induction n generalizing s es with
  | zero => omega
  | succ n ih =>
    rw [itemsWith, bind_eq_ok_iff] at hrun
    obtain ⟨⟨term, more⟩, s₁, hitem, hrest⟩ := hrun
    -- the word after the term decides on whether there is another round
    obtain ⟨t, hterm, hcases⟩ := (itemWith_eq_ok_iff hsep).1 hitem
    obtain ⟨hreach, hphrase⟩ := h.sound hterm hs hk
    have ht := hreach.tidy hs
    rw [ht.toSeparator_peekWord] at hcases
    rcases hcases with ⟨hstop, rfl, rfl⟩ | ⟨hlead, rfl, rfl⟩
    · obtain ⟨rfl, rfl⟩ := pure_eq_ok_iff.1 hrest
      exact ⟨hreach, .last hphrase hstop⟩
    · obtain ⟨others, s'', hothers, hend⟩ := bind_eq_ok_iff.1 hrest
      obtain ⟨rfl, rfl⟩ := pure_eq_ok_iff.1 hend
      -- the term and the separator were passed, so there are fewer lexemes ahead
      obtain ⟨ls, hne, hpass, hwords⟩ := ht.passes_leading hlead
      have hlength := hreach.length_lt
      have hlength' := hpass.length_lt hne
      obtain ⟨hreach', hitems⟩ := ih hothers (hpass.tidy ht) (by rw [← hk, ← hreach.depth])
        (by show t.cursor.skipWord.ahead.length < n; omega)
      rw [hwords] at hitems
      exact ⟨hreach.trans (hreach'.of_passes hpass), .more hphrase hlead hitems⟩

/-- Terms ahead make the rounds of a sequence succeed. -/
theorem complete_itemsWith (h : Reads g.dialect k operand phrase)
    (hsep : separator.isWhitespace = false) {n : Nat} {es : List Expr} {ws ws' : List Text}
    (hitems : Phrase.Items g.dialect phrase separator ws es ws') (hs : s.cursor.Tidy)
    (hk : s.depth = k) (hws : s.cursor.wordsAhead g.dialect = ws)
    (hn : s.cursor.ahead.length < n) :
    ∃ s', g.itemsWith operand separator n s = (.ok es, s') ∧
      s'.cursor.wordsAhead g.dialect = ws' := by
  induction hitems generalizing s n with
  | @last ws ws' e hphrase hstop =>
    obtain ⟨n, rfl⟩ : ∃ m, n = m + 1 := ⟨n - 1, by omega⟩
    rw [← hws] at hphrase
    obtain ⟨t, hterm, hrest⟩ := h.complete s hs hk hphrase
    have ht := (h.sound hterm hs hk).1.tidy hs
    have hfound : t.cursor.peekWord.toSeparator g.dialect = none := by
      rw [ht.toSeparator_peekWord, hrest, hstop]
    refine ⟨t, ?_, hrest⟩
    rw [itemsWith, bind_eq_ok_iff]
    exact ⟨_, t, (itemWith_eq_ok_iff hsep).2 ⟨t, hterm, .inl ⟨hfound, rfl, rfl⟩⟩,
      pure_eq_ok_iff.2 ⟨rfl, rfl⟩⟩
  | @more ws ws' ws'' e es hphrase hlead hitems ih =>
    obtain ⟨n, rfl⟩ : ∃ m, n = m + 1 := ⟨n - 1, by omega⟩
    rw [← hws] at hphrase
    obtain ⟨t, hterm, hrest⟩ := h.complete s hs hk hphrase
    have hreach := (h.sound hterm hs hk).1
    have ht := hreach.tidy hs
    have hlead' : g.dialect.separators.leading? (t.cursor.wordsAhead g.dialect) =
        some separator := by rw [hrest, hlead]
    have hfound : t.cursor.peekWord.toSeparator g.dialect = some separator := by
      rw [ht.toSeparator_peekWord, hlead']
    obtain ⟨ls, hne, hpass, hwords⟩ := ht.passes_leading hlead'
    have hlength := hreach.length_lt
    have hlength' := hpass.length_lt hne
    obtain ⟨s', hothers, hend⟩ := ih (s := { t with cursor := t.cursor.skipWord }) (n := n)
      (hpass.tidy ht) (by rw [← hk, ← hreach.depth]) (by rw [hwords, hrest])
      (by show t.cursor.skipWord.ahead.length < n; omega)
    refine ⟨s', ?_, hend⟩
    rw [itemsWith, bind_eq_ok_iff]
    exact ⟨_, _, (itemWith_eq_ok_iff hsep).2 ⟨t, hterm, .inr ⟨hfound, rfl, rfl⟩⟩,
      bind_eq_ok_iff.2 ⟨es, s', hothers, pure_eq_ok_iff.2 ⟨rfl, rfl⟩⟩⟩

/-- The rule for the rest of a sequence collects the terms. -/
theorem sequenceFromWith_eq_ok_iff {operation : Rule Expr} {first : Expr} :
    g.sequenceFromWith operation first separator s = (.ok e, s') ↔ ∃ es,
      g.itemsWith (g.operandWith operation) separator (s.cursor.ahead.length + 1) s =
        (.ok es, s') ∧ .sequence (first :: es) separator = e := by
  rw [sequenceFromWith, bind_eq_ok_iff]
  constructor
  · rintro ⟨n, t, hlook, hrest⟩
    obtain ⟨rfl, rfl⟩ := look_eq_ok_iff.1 hlook
    obtain ⟨es, t, hitems, hend⟩ := bind_eq_ok_iff.1 hrest
    obtain ⟨rfl, rfl⟩ := pure_eq_ok_iff.1 hend
    exact ⟨es, hitems, rfl⟩
  · rintro ⟨es, hitems, rfl⟩
    exact ⟨_, s, look_eq_ok_iff.2 ⟨rfl, rfl⟩,
      bind_eq_ok_iff.2 ⟨es, s', hitems, pure_eq_ok_iff.2 ⟨rfl, rfl⟩⟩⟩

end Items

/-! ## Runs -/

/-- A successful run of the rule for runs: the word after the first operand decides on the kind of
run. -/
theorem runWith_eq_ok_iff {operation : Rule Expr} {s s' : ReadState} {e : Expr} :
    g.runWith operation s = (.ok e, s') ↔ ∃ left t, g.operandWith operation s = (.ok left, t) ∧
      ((∃ op rest, t.cursor.peekWord.toInfixOp g.dialect = some op ∧
          g.linksWith (g.operandWith operation) t.cursor.ahead.length op t = (.ok rest, s') ∧
          .ofRun left rest = e) ∨
        (t.cursor.peekWord.toInfixOp g.dialect = none ∧ left = e ∧ t = s' ∧
          ∀ separator, t.cursor.peekWord.toSeparator g.dialect = some separator →
            separator.isWhitespace = true) ∨
        (t.cursor.peekWord.toInfixOp g.dialect = none ∧
          ∃ separator, t.cursor.peekWord.toSeparator g.dialect = some separator ∧
            separator.isWhitespace = false ∧ g.sequenceFromWith operation left separator
              { t with cursor := t.cursor.skipWord } = (.ok e, s'))) := by
  simp only [runWith, bind_eq_ok_iff, look_eq_ok_iff]
  constructor
  · rintro ⟨left, t, hleft, l, _, ⟨rfl, rfl⟩, hrun⟩
    refine ⟨left, t, hleft, ?_⟩
    cases hop : t.cursor.peekWord.toInfixOp g.dialect with
    | some op =>
      simp only [hop, bind_eq_ok_iff, look_eq_ok_iff, pure_eq_ok_iff] at hrun
      obtain ⟨_, _, ⟨rfl, rfl⟩, rest, _, hlinks, rfl, rfl⟩ := hrun
      exact .inl ⟨op, rest, rfl, hlinks, rfl⟩
    | none =>
      simp only [hop] at hrun
      cases hfound : t.cursor.peekWord.toSeparator g.dialect with
      | none =>
        simp only [hfound, pure_eq_ok_iff] at hrun
        exact .inr (.inl ⟨rfl, hrun.1, hrun.2, nofun⟩)
      | some separator =>
        simp only [hfound] at hrun
        by_cases hspace : separator.isWhitespace = true
        · rw [if_pos hspace, pure_eq_ok_iff] at hrun
          refine .inr (.inl ⟨rfl, hrun.1, hrun.2, ?_⟩)
          intro separator' heq
          rw [← Option.some.inj heq]
          exact hspace
        · rw [if_neg hspace, bind_eq_ok_iff] at hrun
          obtain ⟨_, _, hmove, hsequence⟩ := hrun
          obtain rfl := move_eq_ok_iff.1 hmove
          exact .inr (.inr ⟨rfl, separator, rfl, by simpa using hspace, hsequence⟩)
  · rintro ⟨left, t, hleft, hcases⟩
    refine ⟨left, t, hleft, _, t, ⟨rfl, rfl⟩, ?_⟩
    rcases hcases with ⟨op, rest, hop, hlinks, rfl⟩ | ⟨hop, rfl, rfl, hspace⟩ |
      ⟨hop, separator, hfound, hsymbolic, hsequence⟩
    · simp only [hop]
      exact bind_eq_ok_iff.2 ⟨_, t, look_eq_ok_iff.2 ⟨rfl, rfl⟩,
        bind_eq_ok_iff.2 ⟨rest, s', hlinks, pure_eq_ok_iff.2 ⟨rfl, rfl⟩⟩⟩
    · simp only [hop]
      cases hfound : t.cursor.peekWord.toSeparator g.dialect with
      | none => exact pure_eq_ok_iff.2 ⟨rfl, rfl⟩
      | some separator =>
        simp only [hspace separator hfound, if_true]
        exact pure_eq_ok_iff.2 ⟨rfl, rfl⟩
    · simp only [hop, hfound, hsymbolic, Bool.false_eq_true, if_false]
      exact bind_eq_ok_iff.2 ⟨(), _, move_eq_ok_iff.2 rfl, hsequence⟩

/-- The rule for runs reads runs of operands. -/
theorem reads_runWith {operation : Rule Expr} {phrase : Reading Expr}
    (h : Reads g.dialect k operation phrase) :
    Reads g.dialect k (g.runWith operation) (Phrase.Run g.dialect (Phrase.Operand g.dialect phrase))
    where
  sound {s e s'} hrun hs hk := by
    obtain ⟨left, t, hleft, hcases⟩ := runWith_eq_ok_iff.1 hrun
    obtain ⟨hreach, hphrase⟩ := (reads_operandWith h).sound hleft hs hk
    have ht := hreach.tidy hs
    have htk : t.depth = k := by rw [hreach.depth, hk]
    have hop : t.cursor.peekWord.toInfixOp g.dialect =
      g.dialect.infixes.leading? (t.cursor.wordsAhead g.dialect) := ht.spelled?_peekWord _
    rw [hop, ht.toSeparator_peekWord] at hcases
    rcases hcases with ⟨op, rest, hlead, hlinks, rfl⟩ | ⟨hstop, rfl, rfl, hspace⟩ |
      ⟨hstop, separator, hlead, hsymbolic, hsequence⟩
    · obtain ⟨hreach', hlinks'⟩ :=
        sound_linksWith (reads_operandWith h) hlinks ht htk hlead (Nat.le_refl _)
      exact ⟨hreach.trans hreach', .chain hphrase hlead hlinks'⟩
    · -- white space is not a word, so no separator follows
      have halone : g.dialect.separators.leading? (t.cursor.wordsAhead g.dialect) = none := by
        rw [Option.eq_none_iff_forall_ne_some]
        intro separator hlead
        have hsymbolic := ht.isWhitespace_of_leading hlead
        rw [hspace separator hlead] at hsymbolic
        cases hsymbolic
      exact ⟨hreach, .single hphrase hstop halone⟩
    · obtain ⟨es, hitems, rfl⟩ := sequenceFromWith_eq_ok_iff.1 hsequence
      obtain ⟨ls, -, hpass, hwords⟩ := ht.passes_leading hlead
      obtain ⟨hreach', hitems'⟩ := sound_itemsWith (reads_operandWith h) hsymbolic hitems
        (hpass.tidy ht) htk (Nat.lt_succ_self _)
      rw [hwords] at hitems'
      exact ⟨hreach.trans (hreach'.of_passes hpass),
        .sequence hphrase hstop hlead hsymbolic hitems'⟩
  complete s e ws hs hk hphrase := by
    -- the first operand, and what is seen after it
    have hfirst : ∀ {left : Expr} {ws' : List Text},
        Phrase.Operand g.dialect phrase (s.cursor.wordsAhead g.dialect) left ws' →
        ∃ t, g.operandWith operation s = (.ok left, t) ∧ t.cursor.wordsAhead g.dialect = ws' ∧
          t.cursor.Tidy ∧ t.depth = k ∧
          t.cursor.peekWord.toInfixOp g.dialect = g.dialect.infixes.leading? ws' ∧
          t.cursor.peekWord.toSeparator g.dialect = g.dialect.separators.leading? ws' := by
      intro left ws' hoperand
      obtain ⟨t, hrun, hrest⟩ := (reads_operandWith h).complete s hs hk hoperand
      have hreach := ((reads_operandWith h).sound hrun hs hk).1
      have ht := hreach.tidy hs
      refine ⟨t, hrun, hrest, ht, by rw [hreach.depth, hk], ?_, ?_⟩
      · rw [← hrest]
        exact ht.spelled?_peekWord _
      · rw [← hrest, ht.toSeparator_peekWord]
    simp only [runWith_eq_ok_iff]
    generalize hws : s.cursor.wordsAhead g.dialect = ws₀ at hphrase hfirst
    cases hphrase with
    | @single _ _ _ hoperand hstop halone =>
      obtain ⟨t, hrun, hrest, -, -, hop, hsep⟩ := hfirst hoperand
      rw [hstop] at hop
      rw [halone] at hsep
      exact ⟨t, ⟨e, t, hrun, .inr (.inl ⟨hop, rfl, rfl, by rw [hsep]; exact nofun⟩)⟩, hrest⟩
    | @chain _ ws' _ left op rest hoperand hlead hlinks =>
      obtain ⟨t, hrun, hrest, ht, htk, hop, -⟩ := hfirst hoperand
      rw [hlead] at hop
      obtain ⟨s', hlinks', hend⟩ := complete_linksWith (reads_operandWith h) hlinks ht htk
        (by rw [hrest, hlead]) (by rw [hrest]) (Nat.le_refl _)
      exact ⟨s', ⟨left, t, hrun, .inl ⟨op, rest, hop, hlinks', rfl⟩⟩, hend⟩
    | @sequence _ ws' _ left separator es hoperand hstop hlead hsymbolic hitems =>
      obtain ⟨t, hrun, hrest, ht, htk, hop, hsep⟩ := hfirst hoperand
      rw [hstop] at hop
      rw [hlead] at hsep
      have hlead' : g.dialect.separators.leading? (t.cursor.wordsAhead g.dialect) =
          some separator := by rw [hrest, hlead]
      obtain ⟨ls, -, hpass, hwords⟩ := ht.passes_leading hlead'
      obtain ⟨s', hitems', hend⟩ := complete_itemsWith (s := { t with cursor := t.cursor.skipWord })
        (reads_operandWith h) hsymbolic hitems (hpass.tidy ht) htk (by rw [hwords, hrest])
        (Nat.lt_succ_self _)
      exact ⟨s', ⟨left, t, hrun, .inr (.inr ⟨hop, separator, hsep, hsymbolic,
        sequenceFromWith_eq_ok_iff.2 ⟨es, hitems', rfl⟩⟩)⟩, hend⟩

/-! ## Nesting -/

/-- A rule one level deeper reads the same phrases, and the level is left again. -/
theorem reads_nested {r : Rule Expr} {phrase : Reading Expr}
    (h : Reads g.dialect (k + 1) r phrase) : Reads g.dialect k (nested r) phrase where
  sound {s e s'} hrun hs hk := by
    have hcursor : ∃ t, r { s with depth := s.depth + 1 } = (.ok e, t) ∧
        { t with depth := t.depth - 1 } = s' := by
      unfold nested at hrun
      rw [Prod.mk.injEq] at hrun
      exact ⟨_, Prod.ext hrun.1 rfl, hrun.2⟩
    obtain ⟨t, hinner, rfl⟩ := hcursor
    -- the rule returns to the depth it was run at, one below which the reading goes on
    obtain ⟨hreach, hphrase⟩ := h.sound hinner hs (by rw [hk])
    have hdepth : t.depth = s.depth + 1 := hreach.depth
    refine ⟨⟨?_, hreach.passes, hreach.settled⟩, hphrase⟩
    show t.depth - 1 = s.depth
    omega
  complete s e ws hs hk hphrase := by
    obtain ⟨t, hinner, hrest⟩ := h.complete { s with depth := s.depth + 1 } hs (by rw [hk]) hphrase
    refine ⟨{ t with depth := t.depth - 1 }, ?_, hrest⟩
    unfold nested
    rw [hinner]

/-- With some levels of nesting left, operations of as many levels are read. -/
theorem reads_operationWithin (levels k : Nat) :
    Reads g.dialect k (g.operationWithin levels) (Phrase.Operation g.dialect levels) := by
  induction levels generalizing k with
  | zero =>
    constructor
    · intro s e s' hrun
      cases hrun
    · intro s e ws _ _ hphrase
      exact hphrase.elim
  | succ levels ih => exact reads_nested (reads_runWith (ih (k + 1)))

/-- An operation at depth `k` may nest as many levels as are left there. -/
theorem reads_operation (g : Grammar) (k : Nat) :
    Reads g.dialect k g.operation (Phrase.Operation g.dialect (g.maxDepth - k)) where
  sound {s e s'} hrun hs hk := by
    unfold operation at hrun
    rw [hk] at hrun
    exact (reads_operationWithin _ k).sound hrun hs hk
  complete s e ws hs hk hphrase := by
    unfold operation
    rw [hk]
    exact (reads_operationWithin _ k).complete s hs hk hphrase

/-- The rule for terms, at any depth. -/
theorem reads_term (g : Grammar) (k : Nat) : Reads g.dialect k g.term
    (Phrase.Term g.dialect (Phrase.Operation g.dialect (g.maxDepth - k))) :=
  reads_termWith (reads_operation g k)

/-- The rule for brackets, at any depth. -/
theorem reads_inBrackets (g : Grammar) (k : Nat) : Reads g.dialect k g.inBrackets
    (Phrase.Bracketed g.dialect (Phrase.Operation g.dialect (g.maxDepth - k))) :=
  reads_inBracketsWith (reads_operation g k)

/-- The rule for operands, at any depth. -/
theorem reads_operand (g : Grammar) (k : Nat) : Reads g.dialect k g.operand
    (Phrase.Operand g.dialect (Phrase.Operation g.dialect (g.maxDepth - k))) :=
  reads_operandWith (reads_operation g k)

/-! ## Whole sources -/

section Whole

variable {rule : Rule Expr} {phrase : Reading Expr} {source : Text}

/-- The words ahead of a reading that starts are those of the source. -/
theorem wordsAhead_startOf (g : Grammar) (source : Text) :
    (startOf source).cursor.wordsAhead g.dialect = words g.dialect (Lexeme.texts source) := by
  show words g.dialect ((Lexeme.all source).map Lexeme.text) = _
  rw [Lexeme.map_text_all]

/-- The end of a source is accepted when there are no words ahead. -/
theorem checkEnd_eq_ok_iff {c : Cursor} (hc : c.Tidy) :
    g.checkEnd c = .ok () ↔ c.wordsAhead g.dialect = [] := by
  rw [← hc.isTerminal_peekWord_iff g.dialect]
  unfold checkEnd
  dsimp only
  split_ifs with hend
  · exact ⟨fun _ => hend, fun _ => rfl⟩
  · constructor
    · intro h
      split at h <;> cases h
    · intro h
      exact absurd h hend

/-- A rule is accepted on a whole source exactly when it stops where no words are left. -/
theorem parseWhole_eq_ok_iff {e : Expr} : g.parseWhole rule source = .ok e ↔
    ∃ s', rule (startOf source) = (.ok e, s') ∧ g.checkEnd s'.cursor = .ok () := by
  unfold parseWhole
  rcases rule (startOf source) with ⟨_ | e', s'⟩
  · simp
  · cases hend : g.checkEnd s'.cursor <;> simp [Except.map, hend]

/-- Where a rule fails on a whole source, its error is the answer. -/
theorem parseWhole_of_error {e : ParseError} (h : (rule (startOf source)).1 = .error e) :
    g.parseWhole rule source = .error e := by
  unfold parseWhole
  rcases hrun : rule (startOf source) with ⟨answer, s'⟩
  rw [hrun] at h
  obtain rfl : answer = .error e := h
  rfl

/-- A source is accepted as one phrase exactly when its words are one. -/
theorem parseWhole_iff_phrase (h : Reads g.dialect 0 rule phrase) {e : Expr} :
    g.parseWhole rule source = .ok e ↔ phrase (words g.dialect (Lexeme.texts source)) e [] := by
  have hs : (startOf source).cursor.Tidy := tidy_ofSource source
  rw [parseWhole_eq_ok_iff, ← wordsAhead_startOf]
  constructor
  · rintro ⟨s', hrun, hend⟩
    obtain ⟨hreach, hphrase⟩ := h.sound hrun hs rfl
    rw [checkEnd_eq_ok_iff (hreach.tidy hs)] at hend
    rw [hend] at hphrase
    exact hphrase
  · intro hphrase
    obtain ⟨s', hrun, hrest⟩ := h.complete _ hs rfl hphrase
    exact ⟨s', hrun, (checkEnd_eq_ok_iff ((h.sound hrun hs rfl).1.tidy hs)).2 hrest⟩

/-- As many rounds as lexemes ahead read phrases up to the end. -/
theorem sound_many (h : Reads g.dialect k rule phrase) {n : Nat} {s s' : ReadState}
    {es : List Expr} (hrun : many rule n s = (.ok es, s')) (hs : s.cursor.Tidy) (hk : s.depth = k)
    (hn : s.cursor.ahead.length ≤ n) :
    Phrase.Many phrase (s.cursor.wordsAhead g.dialect) es := by
  induction n generalizing s es with
  | zero =>
    -- without lexemes ahead there are no words
    obtain ⟨rfl, rfl⟩ := pure_eq_ok_iff.1 hrun
    have hahead : s.cursor.ahead = [] := List.length_eq_zero_iff.1 (by omega)
    unfold wordsAhead textsAhead
    rw [hahead]
    exact .nil
  | succ n ih =>
    rw [many, bind_eq_ok_iff] at hrun
    obtain ⟨ended, t, hlook, hrest⟩ := hrun
    obtain ⟨rfl, rfl⟩ := look_eq_ok_iff.1 hlook
    have hended := hs.isTerminal_peekWord_iff g.dialect
    by_cases hend : s.cursor.atEnd = true
    · rw [if_pos hend] at hrest
      obtain ⟨rfl, rfl⟩ := pure_eq_ok_iff.1 hrest
      rw [hended.1 hend]
      exact .nil
    · rw [if_neg hend] at hrest
      obtain ⟨first, t, hfirst, hrest⟩ := bind_eq_ok_iff.1 hrest
      obtain ⟨others, t', hothers, hpure⟩ := bind_eq_ok_iff.1 hrest
      obtain ⟨rfl, rfl⟩ := pure_eq_ok_iff.1 hpure
      obtain ⟨hreach, hphrase⟩ := h.sound hfirst hs hk
      have hlength := hreach.length_lt
      exact .cons (fun hnil => hend (hended.2 hnil)) hphrase
        (ih hothers (hreach.tidy hs) (by rw [hreach.depth, hk]) (by omega))

/-- Phrases up to the end make the rounds succeed. -/
theorem complete_many (h : Reads g.dialect k rule phrase) {n : Nat} {s : ReadState}
    {es : List Expr} {ws : List Text} (hmany : Phrase.Many phrase ws es) (hs : s.cursor.Tidy)
    (hk : s.depth = k) (hws : s.cursor.wordsAhead g.dialect = ws)
    (hn : s.cursor.ahead.length ≤ n) : ∃ s', many rule n s = (.ok es, s') := by
  induction hmany generalizing s n with
  | nil =>
    cases n with
    | zero => exact ⟨s, rfl⟩
    | succ n =>
      have hend : s.cursor.atEnd = true := (hs.isTerminal_peekWord_iff g.dialect).2 hws
      refine ⟨s, ?_⟩
      rw [many, bind_eq_ok_iff]
      exact ⟨_, s, look_eq_ok_iff.2 ⟨rfl, rfl⟩, by rw [if_pos hend]; rfl⟩
  | @cons ws ws' e es hne hphrase hmany ih =>
    rw [← hws] at hphrase
    obtain ⟨t, hrun, hrest⟩ := h.complete s hs hk hphrase
    have hreach := (h.sound hrun hs hk).1
    have hlength := hreach.length_lt
    obtain ⟨n, rfl⟩ : ∃ m, n = m + 1 := ⟨n - 1, by omega⟩
    have hend : ¬ s.cursor.atEnd = true := by
      intro hend
      exact hne (by rw [← hws]; exact (hs.isTerminal_peekWord_iff g.dialect).1 hend)
    obtain ⟨s', hothers⟩ := ih (n := n) (hreach.tidy hs) (by rw [hreach.depth, hk]) hrest (by omega)
    refine ⟨s', ?_⟩
    rw [many, bind_eq_ok_iff]
    refine ⟨_, s, look_eq_ok_iff.2 ⟨rfl, rfl⟩, ?_⟩
    rw [if_neg hend]
    exact bind_eq_ok_iff.2 ⟨e, t, hrun, bind_eq_ok_iff.2 ⟨es, s', hothers,
      pure_eq_ok_iff.2 ⟨rfl, rfl⟩⟩⟩

/-- A source is accepted as a list of phrases exactly when its words are such a list. -/
theorem parseMany_iff_phrases (h : Reads g.dialect 0 rule phrase) {es : List Expr} :
    parseMany rule source = .ok es ↔
      Phrase.Many phrase (words g.dialect (Lexeme.texts source)) es := by
  have hs : (startOf source).cursor.Tidy := tidy_ofSource source
  rw [← wordsAhead_startOf]
  unfold parseMany
  constructor
  · intro hrun
    exact sound_many h (Prod.ext hrun rfl) hs rfl (Nat.le_refl _)
  · intro hmany
    obtain ⟨s', hrun⟩ := complete_many h hmany hs rfl rfl (Nat.le_refl _)
    show (many rule (startOf source).cursor.ahead.length (startOf source)).1 = _
    rw [hrun]

end Whole

end FlatExpr.Grammar
