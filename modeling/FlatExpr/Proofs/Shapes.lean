import FlatExpr.Expr.Render
import FlatExpr.Proofs.Sequences

/-!
# The shape of what is read

The type of trees allows any shape; a reading produces only some. `Shape` says which: every run of
operands is one flat node, chains and sequences have the operands they need, a term has at most one
operator on either side, and white space separates terms only at the root of a sequence. What may
come after a prefix operator is a term or, where a second prefix operator follows the first, a whole
operation that starts with it. Each node also obeys the dialect, so that what is read under a
dialect can be told from the tree alone.

The shape is put together along the phrases, by induction on the levels of nesting. The induction
carries with it that an operation whose words start with a prefix operator has that operator as its
leftmost node (`Reading.IsShaped`); this is what the operand of a prefix operator needs.
-/

namespace FlatExpr

namespace Shape

mutual

/-- A word, a literal whose text is free of its own mark, or an operation in brackets. -/
inductive Term (d : Dialect) : Expr → Prop where
  | identifier {name : Text} (shape : Lexeme.isIdentifierText name = true)
      (allowed : d.identifiers.allows name = true) : Term d (.identifier name)
  | numeric {value : Text} (shape : Lexeme.isNumericText value = true)
      (allowed : d.numerics.allows value = true) : Term d (.numeric value)
  | literal {q : Quote} {value : Text} (allowed : d.quotes.allows q = true)
      (clear : ∀ c ∈ q.symbol, c ∉ value) : Term d (.literal q value)
  | bracketed {b : Bracket} {inner : Expr} (allowed : d.brackets.allows b = true)
      (inside : Operation d inner) : Term d (.bracketed b inner)

/-- A term, a term under a prefix operator, or an operation under a prefix operator if a prefix
operator is its leftmost node. -/
inductive Head (d : Dialect) : Expr → Prop where
  | bare {term : Expr} (h : Term d term) : Head d term
  | prefixed {op : PrefixOp} {term : Expr} (allowed : d.prefixes.allows op = true)
      (h : Term d term) : Head d (.prefixed op term)
  | stacked {op : PrefixOp} {operation : Expr} (allowed : d.prefixes.allows op = true)
      (h : Operation d operation) (lead : operation.startsWithOperator = true) :
      Head d (.prefixed op operation)

/-- One of these, with at most one postfix operator. -/
inductive Operand (d : Dialect) : Expr → Prop where
  | bare {head : Expr} (h : Head d head) : Operand d head
  | postfixed {op : PostfixOp} {head : Expr} (allowed : d.postfixes.allows op = true)
      (h : Head d head) : Operand d (.postfixed head op)

/-- One operand, a binary node of two, or a chain of at least three. -/
inductive Run (d : Dialect) : Expr → Prop where
  | single {operand : Expr} (h : Operand d operand) : Run d operand
  | binary {left right : Expr} {op : InfixOp} (hleft : Operand d left)
      (allowed : d.infixes.allows op = true) (hright : Operand d right) :
      Run d (.binary left op right)
  | chain {first : Expr} {rest : List (InfixOp × Expr)} (h : Operand d first)
      (long : 2 ≤ rest.length) (allowed : ∀ p ∈ rest, d.infixes.allows p.1 = true)
      (hrest : ∀ p ∈ rest, Operand d p.2) : Run d (.chain first rest)

/-- A run of operands, or a sequence of at least two operands with a separator other than white
space. -/
inductive Operation (d : Dialect) : Expr → Prop where
  | run {e : Expr} (h : Run d e) : Operation d e
  | sequence {terms : List Expr} {separator : Separator} (long : 2 ≤ terms.length)
      (symbolic : separator ≠ .space) (allowed : d.separators.allows separator = true)
      (h : ∀ t ∈ terms, Operand d t) : Operation d (.sequence terms separator)

end

/-- An operation, or a sequence with any separator: a run of operands and at least one operand. -/
inductive Sequence (d : Dialect) : Expr → Prop where
  | operation {e : Expr} (h : Operation d e) : Sequence d e
  | terms {first : Expr} {rest : List Expr} {separator : Separator} (h : Run d first)
      (more : rest ≠ []) (allowed : d.separators.allows separator = true)
      (hrest : ∀ t ∈ rest, Operand d t) : Sequence d (.sequence (first :: rest) separator)

/-- What is read where a term is called for: a term, or an operation with a prefix operator as its
leftmost node. -/
def TermOrPrefixed (d : Dialect) (e : Expr) : Prop :=
  Term d e ∨ (Operation d e ∧ e.startsWithOperator = true)

variable {d : Dialect} {e : Expr}

/-- An operation that is not a sequence is a run of operands. -/
theorem Operation.run_of_not_isSequence (h : Operation d e) (hne : e.isSequence = false) :
    Run d e := by
  cases h with
  | run h => exact h
  | sequence => cases hne

/-- A run of shaped operands has the shape of a run, whatever node it becomes. -/
theorem Run.ofRun {rest : List (InfixOp × Expr)} (h : Operand d e)
    (hrest : ∀ p ∈ rest, d.infixes.allows p.1 = true ∧ Operand d p.2) : Run d (.ofRun e rest) := by
  match rest, hrest with
  | [], _ => exact .single h
  | [(op, right)], hrest =>
    obtain ⟨hallowed, hright⟩ := hrest (op, right) (by simp)
    exact .binary h hallowed hright
  | p :: q :: rest, hrest =>
    exact .chain h (by simp) (fun r hr => (hrest r hr).1) (fun r hr => (hrest r hr).2)

end Shape

/-- A run of operands starts as its first operand does. -/
theorem Expr.startsWithOperator_ofRun (first : Expr) (rest : List (InfixOp × Expr)) :
    (ofRun first rest).startsWithOperator = first.startsWithOperator := by
  match rest with
  | [] => rfl
  | [(_, _)] => rfl
  | _ :: _ :: _ => rfl

/-! ## Phrases are shaped -/

/-- What is read as one of the phrases has the shape of an operation, with a prefix operator as its
leftmost node if the words start with one. -/
def Reading.IsShaped (d : Dialect) (phrase : Reading Expr) : Prop :=
  ∀ {ws e ws'}, phrase ws e ws' →
    Shape.Operation d e ∧ ∀ op, d.prefixes.leading? ws = some op → e.startsWithOperator = true

namespace Phrase

variable {d : Dialect} {operation operand : Reading Expr} {ws ws' : List Text} {e : Expr}

/-- A term has the shape of one, or it is an operation and the words start with the prefix operator
that is its leftmost node. -/
theorem shape_term (h : Reading.IsShaped d operation) (hterm : Term d operation ws e ws') :
    Shape.Term d e ∨
      (Shape.Operation d e ∧ e.startsWithOperator = true ∧ d.prefixes.leading? ws ≠ none) := by
  cases hterm with
  | identifier shape allowed => exact .inl (.identifier shape allowed)
  | numeric shape allowed => exact .inl (.numeric shape allowed)
  | literal hliteral =>
    cases hliteral with
    | mk allowed clear => exact .inl (.literal allowed clear)
  | bracketed _ hbracketed =>
    cases hbracketed with
    | mk allowed inside => exact .inl (.bracketed allowed (h inside).1)
  | prefixed lead hoperation =>
    obtain ⟨hshape, hstarts⟩ := h hoperation
    exact .inr ⟨hshape, hstarts _ lead, by rw [lead]; exact nofun⟩

/-- A term with the prefix operator before it, if there is one. -/
theorem shape_head (h : Reading.IsShaped d operation) {before : Option PrefixOp}
    (hbefore : d.prefixes.leading? ws = before) (hterm : Term d operation (past before ws) e ws') :
    Shape.Head d (Grammar.attach before e none) := by
  have hshape := shape_term h hterm
  cases before with
  | none =>
    -- without a prefix operator before it the term is no operation
    rcases hshape with hshape | ⟨-, -, hlead⟩
    · exact .bare hshape
    · exact absurd hbefore hlead
  | some op =>
    obtain ⟨_, -, hallowed⟩ := (Allowed.leading?_eq_some_iff _ _ _).1 hbefore
    rcases hshape with hshape | ⟨hshape, hstarts, -⟩
    · exact .prefixed hallowed hshape
    · exact .stacked hallowed hshape hstarts

/-- An operand has the shape of one, and starts with the prefix operator that the words start
with. -/
theorem shape_operand (h : Reading.IsShaped d operation) (hoperand : Operand d operation ws e ws') :
    Shape.Operand d e ∧
      ∀ op, d.prefixes.leading? ws = some op → e.startsWithOperator = true := by
  cases hoperand with
  | @mk _ ws' term hterm =>
    -- an operator before the term is the leftmost node, whatever follows the term
    have hhead := shape_head h rfl hterm
    have hafter := postfixOp?_cases d ws'
    cases hpost : postfixOp? d ws' with
    | none =>
      refine ⟨.bare hhead, ?_⟩
      intro op hlead
      rw [hlead]
      rfl
    | some op =>
      rw [hpost] at hafter
      obtain ⟨_, -, hallowed⟩ := (Allowed.leading?_eq_some_iff _ _ _).1 (hafter.resolve_right nofun)
      refine ⟨.postfixed hallowed hhead, ?_⟩
      intro op hlead
      rw [hlead]
      rfl

/-- The links of a chain are operands, and the operators before them are allowed. -/
theorem shape_links (h : Reading.IsShaped d operation) {op : InfixOp}
    {rest : List (InfixOp × Expr)} (hop : d.infixes.allows op = true)
    (hlinks : Links d (Operand d operation) op ws rest ws') :
    ∀ p ∈ rest, d.infixes.allows p.1 = true ∧ Shape.Operand d p.2 := by
  induction hlinks with
  | last hoperand _ =>
    intro p hp
    obtain rfl := List.mem_singleton.1 hp
    exact ⟨hop, (shape_operand h hoperand).1⟩
  | more hoperand hlead _ ih =>
    obtain ⟨_, -, hallowed⟩ := (Allowed.leading?_eq_some_iff _ _ _).1 hlead
    exact List.forall_mem_cons.2 ⟨⟨hop, (shape_operand h hoperand).1⟩, ih hallowed⟩

/-- The terms of a sequence are operands, and there is at least one. -/
theorem shape_items (h : Reading.IsShaped d operation) {separator : Separator} {es : List Expr}
    (hitems : Items d (Operand d operation) separator ws es ws') :
    es ≠ [] ∧ ∀ t ∈ es, Shape.Operand d t := by
  induction hitems with
  | last hoperand _ =>
    refine ⟨List.cons_ne_nil _ _, ?_⟩
    intro t ht
    obtain rfl := List.mem_singleton.1 ht
    exact (shape_operand h hoperand).1
  | more hoperand _ _ ih =>
    exact ⟨List.cons_ne_nil _ _, List.forall_mem_cons.2 ⟨(shape_operand h hoperand).1, ih.2⟩⟩

/-- Runs of operands are shaped. -/
theorem shape_run (h : Reading.IsShaped d operation) :
    Reading.IsShaped d (Run d (Operand d operation)) := by
  intro ws e ws' hrun
  cases hrun with
  | single hoperand _ _ =>
    obtain ⟨hshape, hstarts⟩ := shape_operand h hoperand
    exact ⟨.run (.single hshape), hstarts⟩
  | chain hoperand hlead hlinks =>
    obtain ⟨hshape, hstarts⟩ := shape_operand h hoperand
    obtain ⟨_, -, hallowed⟩ := (Allowed.leading?_eq_some_iff _ _ _).1 hlead
    refine ⟨.run (.ofRun hshape (shape_links h hallowed hlinks)), ?_⟩
    rw [Expr.startsWithOperator_ofRun]
    exact hstarts
  | @sequence _ _ _ _ separator es hoperand _ hlead hsymbolic hitems =>
    obtain ⟨hshape, hstarts⟩ := shape_operand h hoperand
    obtain ⟨_, -, hallowed⟩ := (Allowed.leading?_eq_some_iff _ _ _).1 hlead
    obtain ⟨hne, hterms⟩ := shape_items h hitems
    have hlong := List.length_pos_of_ne_nil hne
    refine ⟨.sequence (by rw [List.length_cons]; omega) ?_ hallowed
      (List.forall_mem_cons.2 ⟨hshape, hterms⟩), hstarts⟩
    -- white space does not separate the terms of an operation
    rintro rfl
    cases hsymbolic

/-- By induction on the levels of nesting, operations are shaped. -/
theorem shape_operation (d : Dialect) (levels : Nat) :
    Reading.IsShaped d (Operation d levels) := by
  induction levels with
  | zero => intro ws e ws' h; exact h.elim
  | succ levels ih => exact shape_run ih

/-- The terms of a sequence by white space are operands, and there is at least one. -/
theorem shape_spacedItems (h : Reading.IsShaped d operation) {ts ts' : List (Option Text)}
    {es : List Expr} (hitems : SpacedItems d (Operand d operation) ts es ts') :
    es ≠ [] ∧ ∀ t ∈ es, Shape.Operand d t := by
  induction hitems with
  | last hleads _ =>
    refine ⟨List.cons_ne_nil _ _, ?_⟩
    intro t ht
    obtain rfl := List.mem_singleton.1 ht
    exact (shape_operand h hleads.phrase).1
  | more hleads _ _ _ ih =>
    exact ⟨List.cons_ne_nil _ _,
      List.forall_mem_cons.2 ⟨(shape_operand h hleads.phrase).1, ih.2⟩⟩

/-- Sequences without regard to the gaps are shaped. -/
theorem shape_sequence {levels : Nat} (h : Sequence d levels ws e ws') : Shape.Sequence d e := by
  have hshaped : Reading.IsShaped d (Operation d levels) := shape_operation d levels
  cases h with
  | whole h _ => exact .operation (hshaped h).1
  | single h => exact .operation (hshaped h).1
  | separated h hsingle hlead _ hitems =>
    obtain ⟨_, -, hallowed⟩ := (Allowed.leading?_eq_some_iff _ _ _).1 hlead
    obtain ⟨hne, hterms⟩ := shape_items hshaped hitems
    exact .terms ((hshaped h).1.run_of_not_isSequence hsingle) hne hallowed hterms

/-- Sequences by white space are shaped. -/
theorem shape_spacedSequence {levels : Nat} {ts ts' : List (Option Text)}
    (h : SpacedSequence d levels ts e ts') : Shape.Sequence d e := by
  have hshaped : Reading.IsShaped d (Operation d levels) := shape_operation d levels
  cases h with
  | mk hleads hsingle hallowed _ _ _ hitems =>
    obtain ⟨hne, hterms⟩ := shape_spacedItems hshaped hitems
    exact .terms ((hshaped hleads.phrase).1.run_of_not_isSequence hsingle) hne hallowed hterms

/-- What holds of every phrase of a list holds of every tree of the list. -/
theorem forall_of_many {phrase : Reading Expr} {P : Expr → Prop} {es : List Expr}
    (h : ∀ {ws e ws'}, phrase ws e ws' → P e) (hmany : Many phrase ws es) : ∀ e ∈ es, P e := by
  induction hmany with
  | nil => intro e he; cases he
  | cons _ hphrase _ ih => exact List.forall_mem_cons.2 ⟨h hphrase, ih⟩

end Phrase

/-! ## Sources -/

namespace Grammar

variable {g : Grammar} {source : Text} {e : Expr} {es : List Expr}

theorem shape_of_parseExpression (h : g.parseExpression source = .ok e) :
    Shape.Operation g.dialect e :=
  (Phrase.shape_operation _ _ ((parseWhole_iff_phrase (reads_operation g 0)).1 h)).1

theorem shape_of_parseExpressions (h : g.parseExpressions source = .ok es) :
    ∀ e ∈ es, Shape.Operation g.dialect e :=
  Phrase.forall_of_many (fun hphrase => (Phrase.shape_operation _ _ hphrase).1)
    ((parseMany_iff_phrases (reads_operation g 0)).1 h)

/-- A term phrase has one of the two shapes that a term is read as. -/
theorem shape_of_term {levels : Nat} {ws ws' : List Text}
    (h : Phrase.Term g.dialect (Phrase.Operation g.dialect levels) ws e ws') :
    Shape.TermOrPrefixed g.dialect e := by
  rcases Phrase.shape_term (Phrase.shape_operation _ _) h with hshape | ⟨hshape, hstarts, -⟩
  · exact .inl hshape
  · exact .inr ⟨hshape, hstarts⟩

theorem shape_of_parseTerm (h : g.parseTerm source = .ok e) :
    Shape.TermOrPrefixed g.dialect e :=
  shape_of_term ((parseWhole_iff_phrase (reads_term g 0)).1 h)

theorem shape_of_parseTerms (h : g.parseTerms source = .ok es) :
    ∀ e ∈ es, Shape.TermOrPrefixed g.dialect e :=
  Phrase.forall_of_many shape_of_term ((parseMany_iff_phrases (reads_term g 0)).1 h)

theorem shape_of_parseSequence (h : g.parseSequence source = .ok e) :
    Shape.Sequence g.dialect e := by
  rcases parseSequence_iff_phrase.1 h with h | h
  · exact Phrase.shape_sequence h
  · exact Phrase.shape_spacedSequence h

/-- Every tree that is read has the shape of its kind: an operation, a term or an operation with a
prefix operator as its leftmost node, or a sequence. -/
theorem parse_shaped (g : Grammar) (source : Text) :
    (∀ e, g.parseExpression source = .ok e → Shape.Operation g.dialect e) ∧
    (∀ es, g.parseExpressions source = .ok es → ∀ e ∈ es, Shape.Operation g.dialect e) ∧
    (∀ e, g.parseTerm source = .ok e → Shape.TermOrPrefixed g.dialect e) ∧
    (∀ es, g.parseTerms source = .ok es → ∀ e ∈ es, Shape.TermOrPrefixed g.dialect e) ∧
    (∀ e, g.parseSequence source = .ok e → Shape.Sequence g.dialect e) :=
  ⟨fun _ h => shape_of_parseExpression h, fun _ h => shape_of_parseExpressions h,
    fun _ h => shape_of_parseTerm h, fun _ h => shape_of_parseTerms h,
    fun _ h => shape_of_parseSequence h⟩

/-- Two prefix operators before a chain that ends in a postfix operator, and a sequence by white
space whose first term is a run of two operands. -/
theorem parse_shaped_stacked :
    (({} : Grammar).parseExpression "- !a + b * (c, 'd')++".toList =
        .ok (.prefixed .minus (.chain (.prefixed .not (.identifier "a".toList))
          [(.plus, .identifier "b".toList),
            (.mult, .postfixed (.bracketed .parenthesis (.sequence [.identifier "c".toList,
              .literal .single "d".toList] .comma)) .plus2)])) ∧
      Shape.Operation .full (.prefixed .minus (.chain (.prefixed .not (.identifier "a".toList))
        [(.plus, .identifier "b".toList),
          (.mult, .postfixed (.bracketed .parenthesis (.sequence [.identifier "c".toList,
            .literal .single "d".toList] .comma)) .plus2)]))) ∧
    (({} : Grammar).parseSequence "a + b c".toList =
        .ok (.sequence [.binary (.identifier "a".toList) .plus (.identifier "b".toList),
          .identifier "c".toList] .space) ∧
      Shape.Sequence .full
        (.sequence [.binary (.identifier "a".toList) .plus (.identifier "b".toList),
          .identifier "c".toList] .space)) :=
  ⟨⟨by decide +kernel, (parse_shaped {} "- !a + b * (c, 'd')++".toList).1 _ (by decide +kernel)⟩,
    ⟨by decide +kernel, (parse_shaped {} "a + b c".toList).2.2.2.2 _ (by decide +kernel)⟩⟩

end Grammar

end FlatExpr
