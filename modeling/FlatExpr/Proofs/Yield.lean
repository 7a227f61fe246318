import FlatExpr.Proofs.Sequences

/-!
# What a tree spells

The yield of a tree is the list of its words in order, with the verbatim text of a literal as one
word. A reading neither loses nor invents a word: the words of the lexemes that a rule passes are
the yield of the tree it answers with, and so are the words of a whole source.

On the side of the phrases this is one equation for each kind of phrase, `ws = e.yield ++ ws'`, and
no yield is empty (`Reading.Spells`); both are put together along the grammar. What the rules pass
is then known from the words ahead of them before and after.
-/

namespace FlatExpr

/-! ## Yields -/

/-- The words that a separator adds between two terms; white space adds none. -/
def Separator.words (separator : Separator) : List Text :=
  if separator.isWhitespace then [] else [separator.symbol]

namespace Expr

mutual

/-- The words of a tree in order. -/
def yield : Expr → List Text
  | .identifier name => [name]
  | .numeric value => [value]
  | .literal quote value => [quote.symbol, value, quote.symbol]
  | .prefixed op operand => op.symbol :: yield operand
  | .postfixed operand op => yield operand ++ [op.symbol]
  | .binary left op right => yield left ++ op.symbol :: yield right
  | .chain first rest => yield first ++ yieldLinks rest
  | .bracketed bracket inner => bracket.opening :: (yield inner ++ [bracket.closing])
  | .sequence [] _ => []
  | .sequence (term :: terms) separator => yield term ++ yieldTerms separator terms

/-- The words of further operands of a chain, each with the operator before it. -/
def yieldLinks : List (InfixOp × Expr) → List Text
  | [] => []
  | (op, operand) :: rest => op.symbol :: (yield operand ++ yieldLinks rest)

/-- The words of further terms of a sequence, each with the separator before it. -/
def yieldTerms (separator : Separator) : List Expr → List Text
  | [] => []
  | term :: terms => separator.words ++ (yield term ++ yieldTerms separator terms)

end

/-- Whatever node a run of operands becomes, its words are those of the run. -/
theorem yield_ofRun (first : Expr) (rest : List (InfixOp × Expr)) :
    (ofRun first rest).yield = first.yield ++ yieldLinks rest := by
  match rest with
  | [] => simp [ofRun, yieldLinks]
  | [(op, right)] => simp [ofRun, yield, yieldLinks]
  | p :: q :: rest => simp [ofRun, yield]

/-- The words of a term with the operators before and after it. -/
theorem yield_attach (before : Option PrefixOp) (term : Expr) (after : Option PostfixOp) :
    (Grammar.attach before term after).yield =
      before.toList.map PrefixOp.symbol ++ (term.yield ++ after.toList.map PostfixOp.symbol) := by
  cases before <;> cases after <;> simp [Grammar.attach, yield]

end Expr

/-! ## Phrases spell their trees -/

/-- The words of a phrase are those of its tree, and there is at least one. -/
def Reading.Spells (phrase : Reading Expr) : Prop :=
  ∀ {ws e ws'}, phrase ws e ws' → ws = e.yield ++ ws' ∧ e.yield ≠ []

namespace Phrase

variable {d : Dialect} {operation operand : Reading Expr} {ws ws' : List Text}

/-- The words are the operator that leads them, if there is one, and the words past it. -/
theorem eq_append_past {α : Type} [Vocabulary α] [DecidableEq α] [OneSpelling α]
    {allowed : Allowed α} {op : Option α} (h : allowed.leading? ws = op ∨ op = none) :
    ws = op.toList.map Vocabulary.symbol ++ past op ws := by
  cases op with
  | none => rfl
  | some a =>
    obtain ⟨rest, rfl, -⟩ := (Allowed.leading?_eq_some_iff _ _ _).1 (h.resolve_right nofun)
    rfl

theorem spells_literal : Reading.Spells (Literal d) := by
  intro ws e ws' h
  cases h with
  | mk => exact ⟨rfl, List.cons_ne_nil _ _⟩

theorem spells_bracketed (h : Reading.Spells operation) :
    Reading.Spells (Bracketed d operation) := by
  intro ws e ws' hphrase
  cases hphrase with
  | @mk b inner ws _ _ hinside =>
    rw [(h hinside).1, Expr.yield]
    exact ⟨by simp, List.cons_ne_nil _ _⟩

theorem spells_term (h : Reading.Spells operation) : Reading.Spells (Term d operation) := by
  intro ws e ws' hphrase
  cases hphrase with
  | identifier => exact ⟨rfl, List.cons_ne_nil _ _⟩
  | numeric => exact ⟨rfl, List.cons_ne_nil _ _⟩
  | literal hliteral => exact spells_literal hliteral
  | bracketed _ hbracketed => exact spells_bracketed h hbracketed
  | prefixed _ hoperation => exact h hoperation

theorem spells_operand (h : Reading.Spells operation) : Reading.Spells (Operand d operation) := by
  intro ws e ws' hphrase
  cases hphrase with
  | @mk _ ws' term hterm =>
    have hbefore : ws = _ := eq_append_past (.inl rfl : d.prefixes.leading? ws = _ ∨ _)
    have hafter : ws' = _ := eq_append_past (postfixOp?_cases d ws')
    obtain ⟨hmiddle, hne⟩ := spells_term h hterm
    rw [Expr.yield_attach]
    refine ⟨?_, by simp [hne]⟩
    calc ws = (d.prefixes.leading? ws).toList.map Vocabulary.symbol ++ (term.yield ++ ws') := by
            rw [← hmiddle]
            exact hbefore
      _ = _ := by
            rw [List.append_assoc, List.append_assoc]
            nth_rewrite 1 [hafter]
            rfl

/-- The words of the links of a chain, with the operator before the first. -/
theorem spells_links (h : Reading.Spells operand) {op : InfixOp} {rest : List (InfixOp × Expr)}
    (hlinks : Links d operand op ws rest ws') :
    op.symbol :: ws = Expr.yieldLinks rest ++ ws' := by
  induction hlinks with
  | last hphrase _ =>
    rw [(h hphrase).1]
    simp [Expr.yieldLinks]
  | @more op op' ws ws' ws'' e rest hphrase hlead _ ih =>
    obtain ⟨ws₁, rfl, -⟩ := (Allowed.leading?_eq_some_iff _ _ _).1 hlead
    have ih : Vocabulary.symbol op' :: ws₁ = _ := ih
    rw [(h hphrase).1, ih]
    simp [Expr.yieldLinks]

/-- The words of the terms of a sequence, with the separator before the first. -/
theorem spells_items (h : Reading.Spells operand) {separator : Separator} {es : List Expr}
    (hsymbolic : separator.isWhitespace = false) (hitems : Items d operand separator ws es ws') :
    separator.symbol :: ws = Expr.yieldTerms separator es ++ ws' := by
  have hwords : separator.words = [separator.symbol] := by simp [Separator.words, hsymbolic]
  induction hitems with
  | last hphrase _ =>
    rw [(h hphrase).1]
    simp [Expr.yieldTerms, hwords]
  | @more ws ws' ws'' e es hphrase hlead _ ih =>
    obtain ⟨ws₁, rfl, -⟩ := (Allowed.leading?_eq_some_iff _ _ _).1 hlead
    have ih : Vocabulary.symbol separator :: ws₁ = _ := ih
    rw [(h hphrase).1, ih]
    simp [Expr.yieldTerms, hwords]

/-- The words of a sequence are those of its first term and of the separated terms after it. -/
theorem spells_sequence (h : Reading.Spells operand) {separator : Separator} {es : List Expr}
    {e : Expr} (hsymbolic : separator.isWhitespace = false)
    (hlead : d.separators.leading? ws = some separator)
    (hitems : Items d operand separator ws.tail es ws') :
    e.yield ++ ws = (Expr.sequence (e :: es) separator).yield ++ ws' := by
  obtain ⟨ws₁, rfl, -⟩ := (Allowed.leading?_eq_some_iff _ _ _).1 hlead
  have hspells : Vocabulary.symbol separator :: ws₁ = _ := spells_items h hsymbolic hitems
  rw [hspells]
  simp [Expr.yield]

theorem spells_run (h : Reading.Spells operand) : Reading.Spells (Run d operand) := by
  intro ws e ws' hphrase
  cases hphrase with
  | single hoperand _ _ => exact h hoperand
  | @chain _ ws' _ left op rest hoperand hlead hlinks =>
    obtain ⟨ws₁, rfl, -⟩ := (Allowed.leading?_eq_some_iff _ _ _).1 hlead
    have hspells : Vocabulary.symbol op :: ws₁ = _ := spells_links h hlinks
    obtain ⟨hleft, hne⟩ := h hoperand
    rw [hleft, hspells, Expr.yield_ofRun]
    exact ⟨by simp, by simp [hne]⟩
  | sequence hoperand _ hlead hsymbolic hitems =>
    obtain ⟨hfirst, hne⟩ := h hoperand
    rw [hfirst]
    exact ⟨spells_sequence h hsymbolic hlead hitems, by simp [Expr.yield, hne]⟩

/-- By induction on the levels of nesting, operations spell their trees. -/
theorem spells_operation (levels : Nat) : Reading.Spells (Operation d levels) := by
  induction levels with
  | zero => intro ws e ws' h; exact h.elim
  | succ levels ih => exact spells_run (spells_operand ih)

theorem spells_wholeSequence (levels : Nat) : Reading.Spells (Sequence d levels) := by
  intro ws e ws' hphrase
  have hoperation : Reading.Spells (Operation d levels) := spells_operation levels
  cases hphrase with
  | whole h _ => exact hoperation h
  | single h => exact hoperation h
  | separated h _ hlead hsymbolic hitems =>
    obtain ⟨hfirst, hne⟩ := hoperation h
    rw [hfirst]
    exact ⟨spells_sequence (spells_operand hoperation) hsymbolic hlead hitems,
      by simp [Expr.yield, hne]⟩

/-- Between the terms of a sequence by white space there are no words. -/
theorem spells_spacedItems (h : Reading.Spells operand) {ts ts' : List (Option Text)}
    {es : List Expr} (hitems : SpacedItems d operand ts es ts') :
    ts.reduceOption = Expr.yieldTerms .space es ++ ts'.reduceOption := by
  induction hitems with
  | last hleads _ =>
    rw [(h hleads.phrase).1]
    simp [Expr.yieldTerms, Separator.words, Separator.isWhitespace]
  | more hleads _ _ _ ih =>
    rw [(h hleads.phrase).1, ih]
    simp [Expr.yieldTerms, Separator.words, Separator.isWhitespace]

theorem spells_spacedSequence {levels : Nat} {ts ts' : List (Option Text)} {e : Expr}
    (h : SpacedSequence d levels ts e ts') :
    ts.reduceOption = e.yield ++ ts'.reduceOption := by
  have hoperation : Reading.Spells (Operation d levels) := spells_operation levels
  cases h with
  | mk hleads _ _ _ _ _ hitems =>
    rw [(hoperation hleads.phrase).1, spells_spacedItems (spells_operand hoperation) hitems]
    simp [Expr.yield]

/-- The words of a list of phrases are those of its trees. -/
theorem spells_many {phrase : Reading Expr} (h : Reading.Spells phrase) {es : List Expr}
    (hmany : Many phrase ws es) : ws = es.flatMap Expr.yield := by
  induction hmany with
  | nil => rfl
  | cons _ hphrase _ ih => rw [(h hphrase).1, ih, List.flatMap_cons]

end Phrase

/-! ## Rules pass what they answer -/

namespace Grammar

open Rule Cursor

/-- From the place `p` of a source, a cursor came to a later place by passing lexemes whose words
are the yield of the tree, and it does not stand before white space. -/
def Spelled (d : Dialect) (source : Text) (p : Nat) (e : Expr) (c : Cursor) : Prop :=
  ∃ q, p < q ∧ q ≤ (Lexeme.all source).length ∧ c = (ofSource source).seek q ∧
    words d ((((Lexeme.all source).take q).drop p).map Lexeme.text) = e.yield ∧
    c.peek.isWhitespace = false

variable {g : Grammar} {source : Text} {p k : Nat} {e : Expr} {s' : ReadState}

/-- Where the words ahead are the yield of a tree and those after a step, the lexemes that the step
passed spell that tree. -/
theorem spelled_of_reaches {s : ReadState} (hcursor : s.cursor = (ofSource source).seek p)
    (hreach : s.Reaches g.dialect s')
    (hwords : s.cursor.wordsAhead g.dialect = e.yield ++ s'.cursor.wordsAhead g.dialect) :
    Spelled g.dialect source p e s'.cursor := by
  obtain ⟨ls, hne, hpass⟩ := hreach.passes
  have hyield : words g.dialect (ls.map Lexeme.text) = e.yield := by
    rw [hpass.wordsAhead_eq] at hwords
    exact List.append_cancel_right hwords
  rw [hcursor] at hpass
  obtain ⟨hseek, hlexemes, hle⟩ := hpass.eq_seek hne
  have hpos : 0 < ls.length := List.length_pos_of_ne_nil hne
  refine ⟨p + ls.length, by omega, hle, hseek, ?_, hreach.settled⟩
  rw [hlexemes]
  exact hyield

/-- A rule that reads phrases which spell their trees passes the lexemes of its answer. -/
theorem spelled_of_reads {rule : Rule Expr} {phrase : Reading Expr}
    (h : Reads g.dialect k rule phrase) (hspells : phrase.Spells)
    (hrun : rule { cursor := (ofSource source).seek p, depth := k } = (.ok e, s')) :
    Spelled g.dialect source p e s'.cursor := by
  obtain ⟨hreach, hphrase⟩ := h.sound hrun (tidy_seek source p) rfl
  exact spelled_of_reaches rfl hreach (hspells hphrase).1

/-- The rule for sequences passes the lexemes of its answer. -/
theorem spelled_of_sequence
    (hrun : g.sequence { cursor := (ofSource source).seek p, depth := k } = (.ok e, s')) :
    Spelled g.dialect source p e s'.cursor := by
  obtain ⟨hreach, hsequence⟩ := sound_sequence hrun (tidy_seek source p) rfl
  refine spelled_of_reaches rfl hreach ?_
  rcases hsequence with h | h
  · exact (Phrase.spells_wholeSequence _ h).1
  · exact Phrase.spells_spacedSequence h

/-- A source that is accepted as one phrase has the words of the tree. -/
theorem words_of_parseWhole {rule : Rule Expr} {phrase : Reading Expr}
    (h : Reads g.dialect 0 rule phrase) (hspells : phrase.Spells)
    (hparse : g.parseWhole rule source = .ok e) :
    words g.dialect (Lexeme.texts source) = e.yield := by
  rw [(hspells ((parseWhole_iff_phrase h).1 hparse)).1, List.append_nil]

/-- A source that is accepted as a sequence has the words of the tree. -/
theorem words_of_parseSequence (hparse : g.parseSequence source = .ok e) :
    words g.dialect (Lexeme.texts source) = e.yield := by
  rcases parseSequence_iff_phrase.1 hparse with h | h
  · rw [(Phrase.spells_wholeSequence _ h).1, List.append_nil]
  · have hwords := Phrase.spells_spacedSequence h
    rw [List.reduceOption_nil, List.append_nil] at hwords
    exact hwords

/-- A reading loses no word and invents none. From any place in a source, each rule that succeeds
has passed lexemes whose words are the yield of its answer, and stands before no white space; the
words of an accepted source are the yield of its tree, or of its trees in order. -/
theorem words_passed_eq_yield (g : Grammar) :
    (∀ rule ∈ [g.sequence, g.term, g.literal, g.inBrackets, g.operation, g.operand],
      ∀ (source : Text) (p depth : Nat) (e : Expr) (s' : ReadState),
        rule { cursor := (ofSource source).seek p, depth := depth } = (.ok e, s') →
        Spelled g.dialect source p e s'.cursor) ∧
    (∀ (source : Text) (e : Expr),
      g.parseSequence source = .ok e ∨ g.parseTerm source = .ok e ∨
        g.parseExpression source = .ok e →
      words g.dialect (Lexeme.texts source) = e.yield) ∧
    (∀ (source : Text) (es : List Expr),
      g.parseTerms source = .ok es ∨ g.parseExpressions source = .ok es →
      words g.dialect (Lexeme.texts source) = es.flatMap Expr.yield) := by
  have hoperation : ∀ k, Reading.Spells (Phrase.Operation g.dialect (g.maxDepth - k)) :=
    fun k => Phrase.spells_operation _
  refine ⟨?_, ?_, ?_⟩
  -- each of the rules
  · simp only [List.forall_mem_cons]
    refine ⟨?_, ?_, ?_, ?_, ?_, ?_, by simp⟩
    · intro source p depth e s' hrun
      exact spelled_of_sequence hrun
    · intro source p depth e s' hrun
      exact spelled_of_reads (reads_term g depth) (Phrase.spells_term (hoperation depth)) hrun
    · intro source p depth e s' hrun
      exact spelled_of_reads reads_literal Phrase.spells_literal hrun
    · intro source p depth e s' hrun
      exact spelled_of_reads (reads_inBrackets g depth)
        (Phrase.spells_bracketed (hoperation depth)) hrun
    · intro source p depth e s' hrun
      exact spelled_of_reads (reads_operation g depth) (hoperation depth) hrun
    · intro source p depth e s' hrun
      exact spelled_of_reads (reads_operand g depth) (Phrase.spells_operand (hoperation depth)) hrun
  -- sources of one tree
  · intro source e hparse
    rcases hparse with h | h | h
    · exact words_of_parseSequence h
    · exact words_of_parseWhole (reads_term g 0) (Phrase.spells_term (hoperation 0)) h
    · exact words_of_parseWhole (reads_operation g 0) (hoperation 0) h
  -- sources of several trees
  · intro source es hparse
    rcases hparse with h | h
    · exact Phrase.spells_many (Phrase.spells_term (hoperation 0))
        ((parseMany_iff_phrases (reads_term g 0)).1 h)
    · exact Phrase.spells_many (hoperation 0) ((parseMany_iff_phrases (reads_operation g 0)).1 h)

/-- An operand in the middle of a source, a sequence by white space, and a list of terms, each with
the answer of the reading that it is about. -/
theorem words_passed_eq_yield_quoted :
    ((({} : Grammar).operand { cursor := (ofSource "g, -'a  b' ;".toList).seek 2 }).1 =
        .ok (.prefixed .minus (.literal .single "a  b".toList)) ∧
      Spelled .full "g, -'a  b' ;".toList 2 (.prefixed .minus (.literal .single "a  b".toList))
        (({} : Grammar).operand { cursor := (ofSource "g, -'a  b' ;".toList).seek 2 }).2.cursor) ∧
    (({} : Grammar).parseSequence " x\n( y )".toList =
        .ok (.sequence [.identifier "x".toList,
          .bracketed .parenthesis (.identifier "y".toList)] .space) ∧
      words .full (Lexeme.texts " x\n( y )".toList) =
        (Expr.sequence [.identifier "x".toList,
          .bracketed .parenthesis (.identifier "y".toList)] .space).yield) ∧
    (({} : Grammar).parseTerms "1 \"\"[z]".toList =
        .ok [.numeric "1".toList, .literal .double [],
          .bracketed .square (.identifier "z".toList)] ∧
      words .full (Lexeme.texts "1 \"\"[z]".toList) =
        [.numeric "1".toList, .literal .double [],
          .bracketed .square (.identifier "z".toList)].flatMap Expr.yield) := by
  have hoperand : (({} : Grammar).operand
      { cursor := (ofSource "g, -'a  b' ;".toList).seek 2 }).1 =
        .ok (.prefixed .minus (.literal .single "a  b".toList)) := by decide
  have hsequence : ({} : Grammar).parseSequence " x\n( y )".toList =
      .ok (.sequence [.identifier "x".toList,
        .bracketed .parenthesis (.identifier "y".toList)] .space) := by decide
  have hterms : ({} : Grammar).parseTerms "1 \"\"[z]".toList =
      .ok [.numeric "1".toList, .literal .double [],
        .bracketed .square (.identifier "z".toList)] := by decide +kernel
  obtain ⟨hrules, hone, hseveral⟩ := words_passed_eq_yield {}
  exact ⟨⟨hoperand, hrules ({} : Grammar).operand (by simp) _ 2 0 _ _ (Prod.ext hoperand rfl)⟩,
    ⟨hsequence, hone _ _ (.inl hsequence)⟩, hterms, hseveral _ _ (.inl hterms)⟩

end Grammar

end FlatExpr
