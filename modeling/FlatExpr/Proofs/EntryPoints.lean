import FlatExpr.Proofs.Canonical
import FlatExpr.Proofs.Limit
import FlatExpr.Proofs.Spans

/-!
# The entry points agree

The entry points differ in the rule that they run and in what they do at its end: some require the
end of the source, some go on. What each of them accepts is known as a relation on the words of the
source, so that most of their agreement is one between phrases: a list of one phrase is that phrase,
an operation is a sequence, and a term is an operation of one level more
(`Phrase.operation_of_term`).

A source that holds more than one operation is reported as unresolved after the first. There, the
reading for lists goes on in the middle of the source. It does so as a reading of the remainder
would: the lexemes ahead are those of the remainder, nothing behind them matters, and the first of
them is not reported as disallowed because an operation starts with it.
-/

namespace FlatExpr

/-! ## Terms and operations -/

namespace Phrase

variable {d : Dialect} {operation : Reading Expr} {n : Nat} {ws ws' : List Text} {e : Expr}

/-- A term that starts with a prefix operator is an operation. -/
theorem Term.operation_of_leading {op : PrefixOp} (h : Term d operation ws e ws')
    (hlead : d.prefixes.leading? ws = some op) : operation ws e ws' := by
  cases h with
  | @identifier name _ shape _ =>
    rw [Canonical.leading?_prefix_word (Lexeme.isWord_of_isIdentifierText shape)] at hlead
    cases hlead
  | @numeric value _ shape _ =>
    rw [Canonical.leading?_prefix_word (Lexeme.isWord_of_isNumericText shape)] at hlead
    cases hlead
  | literal h =>
    cases h with
    | @mk q => cases q <;> cases hlead
  | bracketed _ h =>
    cases h with
    | @mk b => cases b <;> cases hlead
  | prefixed _ h => exact h

/-- A whole source that is a term is an operation of one level more. -/
theorem operation_of_term (h : Term d (Operation d n) ws e []) : Operation d (n + 1) ws e [] := by
  cases hlead : d.prefixes.leading? ws with
  | some op => exact operation_of_le (h.operation_of_leading hlead) (Nat.le_succ n)
  | none =>
    have hoperand : Operand d (Operation d n) ws e [] := .of_eq d hlead rfl h
    exact .single hoperand (Allowed.leading?_nil _) (Allowed.leading?_nil _)

theorem many_nil_iff {phrase : Reading Expr} : Many phrase ws [] ↔ ws = [] := by
  constructor
  · rintro ⟨⟩
    rfl
  · rintro rfl
    exact .nil

theorem many_cons_iff {phrase : Reading Expr} {es : List Expr} :
    Many phrase ws (e :: es) ↔ ws ≠ [] ∧ ∃ ws', phrase ws e ws' ∧ Many phrase ws' es := by
  constructor
  · rintro (_ | ⟨hne, h, hrest⟩)
    exact ⟨hne, _, h, hrest⟩
  · rintro ⟨hne, ws', h, hrest⟩
    exact .cons hne h hrest

/-- There are words where a phrase starts that has some. -/
theorem ne_nil_of_spells {phrase : Reading Expr} (hspells : phrase.Spells) (h : phrase ws e ws') :
    ws ≠ [] := by
  obtain ⟨hws, hne⟩ := hspells h
  rw [hws]
  exact List.append_ne_nil_of_left_ne_nil hne _

/-- A list of one phrase is that phrase. -/
theorem many_singleton_iff {phrase : Reading Expr} (hspells : phrase.Spells) :
    Many phrase ws [e] ↔ phrase ws e [] := by
  simp only [many_cons_iff, many_nil_iff, exists_eq_right, and_iff_right_iff_imp]
  exact ne_nil_of_spells hspells

end Phrase

/-! ## Words that are not reported as disallowed -/

namespace Phrase

variable {d : Dialect} {operation : Reading Expr} {n : Nat} {ws ws' : List Text} {e : Expr}
  {l : Lexeme}

/-- A prefix operator is not reported where it is allowed. -/
theorem disallowedCategory_of_leading {op : PrefixOp} (hl : l.text = ws.headD [])
    (h : d.prefixes.leading? ws = some op) : l.disallowedCategory d = none := by
  rw [Allowed.leading?, ← hl] at h
  exact Lexeme.disallowedCategory_of_allowed .prefixOp
    (by simp [Lexeme.verdicts, Lexeme.verdict_of_spelled h])

theorem Term.disallowedCategory (h : Term d operation ws e ws') (hl : l.text = ws.headD []) :
    l.disallowedCategory d = none := by
  cases h with
  | identifier shape _ =>
    exact Lexeme.disallowedCategory_of_isWord (hl ▸ Lexeme.isWord_of_isIdentifierText shape)
  | numeric shape _ =>
    exact Lexeme.disallowedCategory_of_isWord (hl ▸ Lexeme.isWord_of_isNumericText shape)
  | literal h =>
    cases h with
    | @mk q _ _ allowed _ =>
      have hspelled : d.quotes.spelled? l.text = some q := hl ▸ Allowed.spelled?_symbol allowed
      exact Lexeme.disallowedCategory_of_allowed .quote
        (by simp [Lexeme.verdicts, Lexeme.verdict_of_spelled hspelled])
  | bracketed _ h =>
    cases h with
    | @mk b _ _ _ allowed _ =>
      have hspelled : d.brackets.spelled? l.text = some b :=
        Option.filter_eq_some_iff.2 ⟨(Bracket.ofSymbol?_eq_some_iff _ _).2 (.inl hl), allowed⟩
      have hopening : Bracket.isOpening l.text = true := hl ▸ Bracket.isOpening_opening b
      exact Lexeme.disallowedCategory_of_allowed .openBracket
        (by simp [Lexeme.verdicts, Lexeme.verdict_of_spelled hspelled, hopening])
  | prefixed lead _ => exact disallowedCategory_of_leading hl lead

theorem Operand.disallowedCategory (h : Operand d operation ws e ws') (hl : l.text = ws.headD []) :
    l.disallowedCategory d = none := by
  cases h with
  | mk hterm =>
    cases hlead : d.prefixes.leading? ws with
    | some op => exact disallowedCategory_of_leading hl hlead
    | none =>
      -- nothing is before the term
      rw [hlead] at hterm
      exact hterm.disallowedCategory hl

/-- The lexeme that an operation starts with is not reported as disallowed. -/
theorem disallowedCategory_of_operation (h : Operation d n ws e ws') (hl : l.text = ws.headD []) :
    l.disallowedCategory d = none := by
  cases n with
  | zero => exact h.elim
  | succ n =>
    cases h with
    | single h _ _ => exact h.disallowedCategory hl
    | chain h _ _ => exact h.disallowedCategory hl
    | sequence h _ _ _ _ => exact h.disallowedCategory hl

end Phrase

/-! ## Remainders -/

namespace Grammar

open Rule Cursor

variable {g : Grammar} {source r : Text} {o : Nat} {e : Expr} {s' : ReadState}

/-- A reading that stops before a word has left the remainder from there on, whose words are the
words ahead. -/
theorem remainder_of_reaches (hreach : (startOf source).Reaches g.dialect s')
    (hterminal : s'.cursor.peekWord.isTerminal = false) :
    (∃ passed, Text.splitAt? source s'.cursor.peekWord.start =
        some (passed, s'.cursor.peekWord.remainder)) ∧
      words g.dialect (Lexeme.texts s'.cursor.peekWord.remainder) =
        s'.cursor.wordsAhead g.dialect := by
  have ht := hreach.tidy (tidy_ofSource source)
  obtain ⟨ls, -, hpass⟩ := hreach.passes
  have hpeek : s'.cursor.peekWord = s'.cursor.peek := by
    rw [peekWord, skipSpace_of_settled hreach.settled]
  rw [hpeek] at hterminal ⊢
  cases hahead : s'.cursor.ahead with
  | nil =>
    -- what is seen beyond the end is a terminal
    have hpeek : s'.cursor.peek = s'.cursor.terminal := by unfold peek; rw [hahead]
    rw [hpeek, Lexeme.isTerminal, ht.terminal] at hterminal
    cases hterminal
  | cons l after =>
    have hall : Lexeme.all source = ls ++ l :: after := by
      rw [← hahead]
      exact hpass.ahead
    obtain ⟨hplace, htexts⟩ := Lexeme.all_place hall
    rw [peek_of_ahead hahead]
    refine ⟨hplace, ?_⟩
    rw [htexts, wordsAhead, textsAhead, hahead]

/-- What is left of a source is unresolved unless its first lexeme is reported as disallowed. -/
theorem checkEnd_eq_unresolved_iff {c : Cursor} :
    g.checkEnd c = .error (.unresolved r o) ↔
      c.peekWord.isTerminal = false ∧ c.peekWord.disallowedCategory g.dialect = none ∧
        c.peekWord.remainder = r ∧ c.peekWord.start = o := by
  unfold checkEnd
  dsimp only
  cases hend : c.peekWord.isTerminal with
  | true => simp
  | false => cases hcategory : c.peekWord.disallowedCategory g.dialect <;> simp

/-- A source is reported as unresolved exactly where an operation was read before the remainder. -/
theorem parseExpression_eq_unresolved_iff :
    g.parseExpression source = .error (.unresolved r o) ↔
      ∃ e s', g.operation (startOf source) = (.ok e, s') ∧
        g.checkEnd s'.cursor = .error (.unresolved r o) := by
  -- an operation itself fails because of a lexeme or of the limit
  have hupTo : UpTo g.maxDepth g.maxDepth (startOf source) (g.operation (startOf source))
      (g.operation (startOf source)) :=
    agrees_operation (Nat.le_refl g.maxDepth) (startOf source) (tidy_ofSource source) rfl
  unfold parseExpression parseWhole
  generalize g.operation (startOf source) = x at hupTo ⊢
  cases hupTo with
  | refused => simp
  | failed h =>
    constructor
    · intro herror
      exact absurd (Except.error.inj herror) (h.ne_unresolved r o)
    · rintro ⟨e, s', ⟨⟩, -⟩
  | @passed e s' _ =>
    cases hend : g.checkEnd s'.cursor <;> simp [Except.map, hend]

/-- A list of several operations is an operation and, after it, what is read from the remainder. -/
theorem parseExpressions_cons_iff {tail : List Expr} :
    (g.parseExpressions source = .ok (e :: tail) ∧ tail ≠ []) ↔
      ∃ r o, g.parseExpression source = .error (.unresolved r o) ∧
        (Text.splitAt? source o).map Prod.snd = some r ∧ g.parseExpressions r = .ok tail ∧
        (g.operation (startOf source)).1 = .ok e := by
  have hs : (startOf source).cursor.Tidy := tidy_ofSource source
  have hreads := reads_operation g 0
  simp only [parseExpressions, parseMany_iff_phrases hreads, parseExpression_eq_unresolved_iff,
    checkEnd_eq_unresolved_iff]
  constructor
  · rintro ⟨hmany, hne⟩
    obtain ⟨-, ws, hfirst, hrest⟩ := Phrase.many_cons_iff.1 hmany
    obtain ⟨second, others, rfl⟩ := List.exists_cons_of_ne_nil hne
    obtain ⟨hws, _, hsecond, -⟩ := Phrase.many_cons_iff.1 hrest
    -- the first operation stops before the words of the others
    rw [← wordsAhead_startOf] at hfirst
    obtain ⟨s', hrun, rfl⟩ := hreads.complete _ hs rfl hfirst
    have hreach := (hreads.sound hrun hs rfl).1
    have ht := hreach.tidy hs
    have hterminal : s'.cursor.peekWord.isTerminal = false := by
      rw [← Bool.not_eq_true, ht.isTerminal_peekWord_iff g.dialect]
      exact hws
    have hcategory : s'.cursor.peekWord.disallowedCategory g.dialect = none :=
      Phrase.disallowedCategory_of_operation hsecond ht.text_peekWord
    obtain ⟨⟨passed, hsplit⟩, hwords⟩ := remainder_of_reaches hreach hterminal
    refine ⟨_, _, ⟨e, s', hrun, hterminal, hcategory, rfl, rfl⟩, by rw [hsplit]; rfl, ?_,
      by rw [hrun]⟩
    rw [hwords]
    exact hrest
  · rintro ⟨_, _, ⟨e', s', hrun, hterminal, -, rfl, rfl⟩, -, htail, he⟩
    obtain rfl : e' = e := by
      rw [hrun] at he
      exact Except.ok.inj he
    -- the list goes on in the source as it does in the remainder
    obtain ⟨hreach, hfirst⟩ := hreads.sound hrun hs rfl
    rw [(remainder_of_reaches hreach hterminal).2] at htail
    constructor
    · rw [← wordsAhead_startOf]
      exact .cons (Phrase.ne_nil_of_spells (Phrase.spells_operation _) hfirst) hfirst htail
    · rintro rfl
      have hnil := Phrase.many_nil_iff.1 htail
      rw [← (hreach.tidy hs).isTerminal_peekWord_iff g.dialect, hterminal] at hnil
      cases hnil

/-- What a source is said to be left with is the part of it from that offset on, and an operation
was read before it. -/
theorem remainder_of_unresolved (h : g.parseExpression source = .error (.unresolved r o)) :
    (Text.splitAt? source o).map Prod.snd = some r ∧
      ∃ e, (g.operation (startOf source)).1 = .ok e := by
  obtain ⟨e, s', hrun, hend⟩ := parseExpression_eq_unresolved_iff.1 h
  obtain ⟨hterminal, -, rfl, rfl⟩ := checkEnd_eq_unresolved_iff.1 hend
  have hreach := ((reads_operation g 0).sound hrun (tidy_ofSource source) rfl).1
  obtain ⟨⟨passed, hsplit⟩, -⟩ := remainder_of_reaches hreach hterminal
  exact ⟨by rw [hsplit]; rfl, e, by rw [hrun]⟩

/-! ## One entry point and another -/

theorem parseSequence_of_parseExpression (h : g.parseExpression source = .ok e) :
    g.parseSequence source = .ok e :=
  parseSequence_iff_phrase.2
    (.inl (.single ((parseWhole_iff_phrase (reads_operation g 0)).1 h)))

/-- A sequence that has only one term is an operation. -/
theorem parseExpression_of_parseSequence (h : g.parseSequence source = .ok e)
    (hsingle : e.isSequence = false) : g.parseExpression source = .ok e := by
  refine (parseWhole_iff_phrase (reads_operation g 0)).2 ?_
  rcases parseSequence_iff_phrase.1 h with hsequence | hsequence
  · generalize words g.dialect (Lexeme.texts source) = ws at hsequence ⊢
    cases hsequence with
    | whole hoperation _ => exact hoperation
    | single hoperation => exact hoperation
    | separated => cases hsingle -- the root is a sequence
  · generalize tokens g.dialect (Lexeme.texts source) = ts at hsequence
    cases hsequence with
    | mk => cases hsingle

theorem parseExpression_of_parseTerm (h : g.parseTerm source = .ok e) :
    (⟨g.dialect, g.maxDepth + 1⟩ : Grammar).parseExpression source = .ok e :=
  (parseWhole_iff_phrase (reads_operation ⟨g.dialect, g.maxDepth + 1⟩ 0)).2
    (Phrase.operation_of_term ((parseWhole_iff_phrase (reads_term g 0)).1 h))

/-- The entry points agree with each other. A list of one is what the entry point for one reads; an
operation is a sequence, and a sequence that is none by its tree is an operation; a term is an
operation under a limit that is larger by one; and a list of several is read operation by
operation, each time from the remainder that the entry point for one reports. -/
theorem entryPoints_agree (g : Grammar) (source : Text) :
    (∀ e, (g.parseExpression source = .ok e ↔ g.parseExpressions source = .ok [e]) ∧
      (g.parseTerm source = .ok e ↔ g.parseTerms source = .ok [e])) ∧
    (∀ e, (g.parseExpression source = .ok e → g.parseSequence source = .ok e) ∧
      (g.parseSequence source = .ok e → e.isSequence = false →
        g.parseExpression source = .ok e)) ∧
    (∀ e, g.parseTerm source = .ok e →
      (⟨g.dialect, g.maxDepth + 1⟩ : Grammar).parseExpression source = .ok e) ∧
    (∀ e tail, (g.parseExpressions source = .ok (e :: tail) ∧ tail ≠ []) ↔
      ∃ r o, g.parseExpression source = .error (.unresolved r o) ∧
        (Text.splitAt? source o).map Prod.snd = some r ∧ g.parseExpressions r = .ok tail ∧
        (g.operation (startOf source)).1 = .ok e) ∧
    ∀ r o, g.parseExpression source = .error (.unresolved r o) →
      (Text.splitAt? source o).map Prod.snd = some r ∧
        ∃ e, (g.operation (startOf source)).1 = .ok e := by
  have hoperation : Reading.Spells (Phrase.Operation g.dialect (g.maxDepth - 0)) :=
    Phrase.spells_operation _
  refine ⟨?_, ?_, ?_, ?_, ?_⟩
  · intro e
    constructor
    · rw [parseExpression, parseExpressions, parseWhole_iff_phrase (reads_operation g 0),
        parseMany_iff_phrases (reads_operation g 0), Phrase.many_singleton_iff hoperation]
    · rw [parseTerm, parseTerms, parseWhole_iff_phrase (reads_term g 0),
        parseMany_iff_phrases (reads_term g 0),
        Phrase.many_singleton_iff (Phrase.spells_term hoperation)]
  · intro e
    exact ⟨parseSequence_of_parseExpression, parseExpression_of_parseSequence⟩
  · intro e
    exact parseExpression_of_parseTerm
  · intro e tail
    exact parseExpressions_cons_iff
  · intro r o
    exact remainder_of_unresolved

/-- A term in brackets under the smallest limit, a sequence of one term, and three expressions of
which the first takes five bytes with the blank after it. -/
theorem entryPoints_agree_bracketed :
    ((⟨.full, 1⟩ : Grammar).parseTerm "(a)".toList =
        .ok (.bracketed .parenthesis (.identifier "a".toList)) ∧
      (⟨.full, 2⟩ : Grammar).parseExpression "(a)".toList =
        .ok (.bracketed .parenthesis (.identifier "a".toList))) ∧
    (({} : Grammar).parseSequence "- !a".toList =
        .ok (.prefixed .minus (.prefixed .not (.identifier "a".toList))) ∧
      ({} : Grammar).parseExpression "- !a".toList =
        .ok (.prefixed .minus (.prefixed .not (.identifier "a".toList)))) ∧
    (({} : Grammar).parseExpression "'é' b - c (d)".toList =
        .error (.unresolved "b - c (d)".toList 5) ∧
      ({} : Grammar).parseExpressions "'é' b - c (d)".toList =
        .ok [.literal .single "é".toList,
          .binary (.identifier "b".toList) .minus (.identifier "c".toList),
          .bracketed .parenthesis (.identifier "d".toList)]) :=
  ⟨⟨by decide +kernel,
      (entryPoints_agree ⟨.full, 1⟩ "(a)".toList).2.2.1 _ (by decide +kernel)⟩,
    ⟨by decide +kernel,
      ((entryPoints_agree {} "- !a".toList).2.1 _).2 (by decide +kernel) rfl⟩,
    ⟨by decide +kernel,
      (((entryPoints_agree {} "'é' b - c (d)".toList).2.2.2.1 _ _).2
        ⟨"b - c (d)".toList, 5, by decide +kernel, by decide +kernel, by decide +kernel,
          by decide +kernel⟩).1⟩⟩

end Grammar

end FlatExpr
