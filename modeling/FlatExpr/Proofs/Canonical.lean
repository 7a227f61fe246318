import FlatExpr.Proofs.Rendering

/-!
# Canonical trees

The trees of a canonical shape are all read back from their rendering, if there are enough levels of
nesting for their brackets. A canonical tree is legible, so its rendering has the words of the tree,
and these words are a phrase that is read as the tree (`Canonical.phrase_operation`).

The phrase is built by induction on the levels of nesting. What has to be shown on the way is that
no word is taken for another part of speech: after an operand comes nothing that could be its
postfix operator, because a word that is an infix operator too is one where an operand follows it
(`postfixOp?_infix`), and what comes after the whole operation does not continue it (`Stops`).
-/

namespace FlatExpr

/-! ## Nesting -/

namespace Expr

mutual

/-- The largest number of brackets around any part of a tree. -/
def nesting : Expr → Nat
  | .prefixed _ operand => nesting operand
  | .postfixed operand _ => nesting operand
  | .binary left _ right => max (nesting left) (nesting right)
  | .chain first rest => max (nesting first) (nestingLinks rest)
  | .bracketed _ inner => nesting inner + 1
  | .sequence terms _ => nestingTerms terms
  | _ => 0

/-- The largest number of brackets in some further operands. -/
def nestingLinks : List (InfixOp × Expr) → Nat
  | [] => 0
  | (_, operand) :: rest => max (nesting operand) (nestingLinks rest)

/-- The largest number of brackets in some terms. -/
def nestingTerms : List Expr → Nat
  | [] => 0
  | term :: terms => max (nesting term) (nestingTerms terms)

end

theorem nesting_le_nestingLinks {rest : List (InfixOp × Expr)} {p : InfixOp × Expr}
    (hp : p ∈ rest) : p.2.nesting ≤ nestingLinks rest := by
  induction rest with
  | nil => cases hp
  | cons q rest ih =>
    rw [nestingLinks]
    rcases List.mem_cons.1 hp with rfl | hp
    · exact Nat.le_max_left _ _
    · exact (ih hp).trans (Nat.le_max_right _ _)

theorem nesting_le_nestingTerms {terms : List Expr} {t : Expr} (ht : t ∈ terms) :
    t.nesting ≤ nestingTerms terms := by
  induction terms with
  | nil => cases ht
  | cons u terms ih =>
    rw [nestingTerms]
    rcases List.mem_cons.1 ht with rfl | ht
    · exact Nat.le_max_left _ _
    · exact (ih ht).trans (Nat.le_max_right _ _)

end Expr

/-! ## Canonical shapes -/

namespace Canonical

mutual

/-- A word of its shape, a literal, or an operation in brackets other than angles. -/
inductive Term (d : Dialect) : Expr → Prop where
  | identifier {name : Text} (shape : Lexeme.isIdentifierText name = true)
      (allowed : d.identifiers.allows name = true) : Term d (.identifier name)
  | numeric {value : Text} (shape : Lexeme.isNumericText value = true)
      (allowed : d.numerics.allows value = true) : Term d (.numeric value)
  | literal {q : Quote} {value : Text} (allowed : d.quotes.allows q = true)
      (clear : ∀ c ∈ q.symbol, c ∉ value) : Term d (.literal q value)
  | bracketed {b : Bracket} {inner : Expr} (kind : b ≠ .angle)
      (allowed : d.brackets.allows b = true) (inside : Operation d inner) :
      Term d (.bracketed b inner)

/-- A term, or a term under one prefix operator. -/
inductive Head (d : Dialect) : Expr → Prop where
  | bare {term : Expr} (h : Term d term) : Head d term
  | prefixed {op : PrefixOp} {term : Expr} (allowed : d.prefixes.allows op = true)
      (h : Term d term) : Head d (.prefixed op term)

/-- A term with at most one prefix operator, and at most one postfix operator that is not an allowed
infix operator as well. -/
inductive Operand (d : Dialect) : Expr → Prop where
  | bare {head : Expr} (h : Head d head) : Operand d head
  | postfixed {op : PostfixOp} {head : Expr} (allowed : d.postfixes.allows op = true)
      (apart : ∀ op' : InfixOp, d.infixes.allows op' = true → op'.symbol ≠ op.symbol)
      (h : Head d head) : Operand d (.postfixed head op)

/-- One operand, operands joined by allowed infix operators, or a sequence of at least two operands
with an allowed separator that is not an allowed infix operator as well. -/
inductive Operation (d : Dialect) : Expr → Prop where
  | single {operand : Expr} (h : Operand d operand) : Operation d operand
  | binary {left right : Expr} {op : InfixOp} (hleft : Operand d left)
      (allowed : d.infixes.allows op = true) (hright : Operand d right) :
      Operation d (.binary left op right)
  | chain {first : Expr} {rest : List (InfixOp × Expr)} (h : Operand d first)
      (long : 2 ≤ rest.length) (allowed : ∀ p ∈ rest, d.infixes.allows p.1 = true)
      (hrest : ∀ p ∈ rest, Operand d p.2) : Operation d (.chain first rest)
  | sequence {terms : List Expr} {separator : Separator} (long : 2 ≤ terms.length)
      (symbolic : separator.isWhitespace = false)
      (allowed : d.separators.allows separator = true)
      (colon : separator = .colon → d.infixes.allows .colon = false)
      (h : ∀ t ∈ terms, Operand d t) : Operation d (.sequence terms separator)

end

/-! ## Canonical trees are legible -/

variable {d : Dialect} {e : Expr}

mutual

/-- A term is legible and does not end with an operator. -/
theorem Term.legible : ∀ {e : Expr}, Term d e → Legible d e ∧ e.endsWithOperator = false
  | _, .identifier shape _ => ⟨.identifier shape, rfl⟩
  | _, .numeric shape _ => ⟨.numeric shape, rfl⟩
  | _, .literal allowed clear => ⟨.literal allowed clear, rfl⟩
  | _, .bracketed kind _ inside => ⟨.bracketed kind inside.legible, rfl⟩

theorem Head.legible : ∀ {e : Expr}, Head d e → Legible d e ∧ e.endsWithOperator = false
  | _, .bare h => h.legible
  | _, .prefixed _ h => ⟨.prefixed h.legible.1, h.legible.2⟩

theorem Operand.legible : ∀ {e : Expr}, Operand d e → Legible d e
  | _, .bare h => h.legible.1
  | _, .postfixed _ _ h => .postfixed h.legible.1 h.legible.2

theorem Operation.legible : ∀ {e : Expr}, Operation d e → Legible d e
  | _, .single h => h.legible
  | _, .binary hleft _ hright => .binary hleft.legible hright.legible
  | _, .chain h long _ hrest =>
    .chain h.legible (List.ne_nil_of_length_pos (by omega)) fun p hp => (hrest p hp).legible
  | _, .sequence long _ _ _ h =>
    .sequence (List.ne_nil_of_length_pos (by omega)) fun t ht => (h t ht).legible

end

/-! ## Words in their places -/

/-- The words that do not continue an operation. -/
structure Stops (d : Dialect) (ws : List Text) : Prop where
  /-- No postfix operator follows. -/
  after : Phrase.postfixOp? d ws = none
  /-- No infix operator follows. -/
  infixes : d.infixes.leading? ws = none
  /-- No separator follows. -/
  separators : d.separators.leading? ws = none

theorem stops_nil (d : Dialect) : Stops d [] where
  after := by
    rcases Phrase.postfixOp?_cases d [] with h | h
    · rw [← h]
      exact Allowed.leading?_nil _
    · exact h
  infixes := Allowed.leading?_nil _
  separators := Allowed.leading?_nil _

/-- A bracket that closes ends the operation in it. -/
theorem stops_closing {b : Bracket} (h : b ≠ .angle) (ws : List Text) :
    Stops d (b.closing :: ws) := by
  have hwords : d.infixes.leading? (b.closing :: ws) = none ∧
      d.postfixes.leading? (b.closing :: ws) = none ∧
      d.separators.leading? (b.closing :: ws) = none := by
    cases b with
    | angle => exact absurd rfl h
    | _ => exact ⟨rfl, rfl, rfl⟩
  refine ⟨?_, hwords.1, hwords.2.2⟩
  rcases Phrase.postfixOp?_cases d (b.closing :: ws) with hpost | hpost
  · rw [← hpost]
    exact hwords.2.1
  · exact hpost

/-- Where an operand follows, a word that is an infix operator is no postfix operator. -/
theorem postfixOp?_infix {op : InfixOp} (hallowed : d.infixes.allows op = true) {ws : List Text}
    (hstarts : Phrase.startsOperand d ws = true) :
    Phrase.postfixOp? d (op.symbol :: ws) = none := by
  have hlead : d.infixes.leading? (op.symbol :: ws) = some op := Allowed.spelled?_symbol hallowed
  unfold Phrase.postfixOp?
  rw [hlead, List.tail_cons, hstarts]
  rfl

/-- A postfix operator that is not an infix operator as well. -/
theorem postfixOp?_symbol {op : PostfixOp} (hallowed : d.postfixes.allows op = true)
    (hapart : ∀ op' : InfixOp, d.infixes.allows op' = true → op'.symbol ≠ op.symbol)
    (ws : List Text) : Phrase.postfixOp? d (op.symbol :: ws) = some op := by
  have hnone : d.infixes.leading? (op.symbol :: ws) = none := by
    rw [Option.eq_none_iff_forall_ne_some]
    intro op' hop'
    obtain ⟨hsymbol, hallowed'⟩ := (Allowed.spelled?_eq_some_iff _ _ _).1 hop'
    exact hapart op' hallowed' hsymbol.symm
  unfold Phrase.postfixOp?
  rw [hnone]
  exact Allowed.spelled?_symbol hallowed

/-- No separator is a postfix operator. -/
theorem postfixOp?_separator (separator : Separator) (ws : List Text) :
    Phrase.postfixOp? d (separator.symbol :: ws) = none := by
  rcases Phrase.postfixOp?_cases d (separator.symbol :: ws) with h | h
  · rw [← h]
    cases separator <;> rfl
  · exact h

/-- A separator is an infix operator only if it is the colon. -/
theorem leading?_infix_separator {separator : Separator}
    (hcolon : separator = .colon → d.infixes.allows .colon = false) (ws : List Text) :
    d.infixes.leading? (separator.symbol :: ws) = none := by
  cases separator with
  | colon =>
    rw [Option.eq_none_iff_forall_ne_some]
    intro op hop
    obtain ⟨hsymbol, hallowed⟩ := (Allowed.spelled?_eq_some_iff _ _ _).1 hop
    have hop : op = .colon := by
      have hfound := (OneSpelling.ofSymbol?_eq_some_iff _ _).2 hsymbol
      exact (Option.some.inj hfound).symm
    rw [hop, hcolon rfl] at hallowed
    cases hallowed
  | _ => rfl

/-- A word of identifier or number characters is no prefix operator. -/
theorem leading?_prefix_word {t : Text} (h : Text.IsWord t)
    (ws : List Text) : d.prefixes.leading? (t :: ws) = none := by
  rw [Option.eq_none_iff_forall_ne_some]
  intro op hop
  obtain ⟨rfl, -⟩ := (Allowed.spelled?_eq_some_iff _ _ _).1 hop
  obtain ⟨-, hpunctuation⟩ := (Text.isPunctuation_iff _).1 op.isPunctuation_symbol
  obtain ⟨c, hc⟩ := List.exists_mem_of_ne_nil _ h.1
  have hword := h.2 c hc
  rw [hpunctuation c hc] at hword
  cases hword

/-- A term starts with no prefix operator, but with a word that starts an operand. -/
theorem Term.leads (h : Term d e) (ws : List Text) :
    d.prefixes.leading? (e.yield ++ ws) = none ∧ Phrase.startsOperand d (e.yield ++ ws) = true := by
  unfold Phrase.startsOperand Grammar.startsOperand
  cases h with
  | @identifier name shape _ =>
    refine ⟨leading?_prefix_word (Lexeme.isWord_of_isIdentifierText shape) _, ?_⟩
    simp [Expr.yield, Lexeme.isIdentifier, Lexeme.ofText, shape]
  | @numeric value shape _ =>
    refine ⟨leading?_prefix_word (Lexeme.isWord_of_isNumericText shape) _, ?_⟩
    simp [Expr.yield, Lexeme.isNumeric, Lexeme.ofText, shape]
  | @literal q value allowed _ =>
    have hcategory : (Lexeme.ofText q.symbol).classify d = .ok (.quote q) :=
      (Lexeme.classify_eq_quote_iff q).2 ⟨rfl, allowed⟩
    refine ⟨by cases q <;> rfl, ?_⟩
    simp [Expr.yield, hcategory]
  | @bracketed b inner kind allowed _ =>
    have hcategory : (Lexeme.ofText b.opening).classify d = .ok (.bracket b true) :=
      (Lexeme.classify_eq_opening_iff b).2 ⟨rfl, allowed, fun hb => absurd hb kind⟩
    refine ⟨by cases b <;> rfl, ?_⟩
    simp [Expr.yield, hcategory]

theorem Head.startsOperand (h : Head d e) (ws : List Text) :
    Phrase.startsOperand d (e.yield ++ ws) = true := by
  cases h with
  | bare h => exact (h.leads ws).2
  | @prefixed op term allowed _ =>
    have hcategory : (Lexeme.ofText op.symbol).classify d = .ok (.prefixOp op) :=
      (Lexeme.classify_eq_prefixOp_iff op).2 ⟨rfl, allowed⟩
    simp [Phrase.startsOperand, Grammar.startsOperand, Expr.yield, hcategory]

theorem Operand.startsOperand (h : Operand d e) (ws : List Text) :
    Phrase.startsOperand d (e.yield ++ ws) = true := by
  cases h with
  | bare h => exact h.startsOperand ws
  | postfixed _ _ h =>
    rw [Expr.yield, List.append_assoc]
    exact h.startsOperand _

/-! ## Canonical trees are read from their words -/

section Phrases

variable {levels : Nat} {ws : List Text}

/-- At the given number of levels, operations of as many nested brackets are read from their
words. -/
def ReadsBack (d : Dialect) (levels : Nat) : Prop :=
  ∀ {e : Expr} {ws : List Text}, Operation d e → e.nesting < levels → Stops d ws →
    Phrase.Operation d levels (e.yield ++ ws) e ws

/-- A term is read from its words, whatever follows. -/
theorem Term.phrase (hd : ReadsBack d levels) (h : Term d e) (hlevels : e.nesting ≤ levels)
    (ws : List Text) : Phrase.Term d (Phrase.Operation d levels) (e.yield ++ ws) e ws := by
  cases h with
  | identifier shape allowed => exact .identifier shape allowed
  | numeric shape allowed => exact .numeric shape allowed
  | literal allowed clear => exact .literal (.mk allowed clear)
  | @bracketed b inner kind allowed inside =>
    rw [Expr.nesting] at hlevels
    -- the closing bracket stops the operation inside
    have hinner : Phrase.Operation d levels (inner.yield ++ b.closing :: ws) inner
        (b.closing :: ws) := hd inside (by omega) (stops_closing kind ws)
    have hwords : (Expr.bracketed b inner).yield ++ ws =
        b.opening :: (inner.yield ++ b.closing :: ws) := by simp [Expr.yield]
    rw [hwords]
    refine .bracketed ?_ (.mk allowed hinner)
    intro hangle
    exact absurd (Bracket.opening_inj.1 (Option.some.inj hangle)) kind

/-- A term under a prefix operator, if there is one, is read from its words up to the postfix
operator. -/
theorem Head.phrase (hd : ReadsBack d levels) (h : Head d e) (hlevels : e.nesting ≤ levels)
    {after : Option PostfixOp} (hafter : Phrase.postfixOp? d ws = after) :
    Phrase.Operand d (Phrase.Operation d levels) (e.yield ++ ws) (Grammar.attach none e after)
      (Phrase.past after ws) := by
  cases h with
  | bare h => exact .of_eq d (h.leads ws).1 hafter (h.phrase hd hlevels ws)
  | @prefixed op term allowed h =>
    have hlead : d.prefixes.leading? (op.symbol :: (term.yield ++ ws)) = some op :=
      Allowed.spelled?_symbol allowed
    have hoperand := Phrase.Operand.of_eq d hlead hafter (h.phrase hd hlevels ws)
    exact hoperand

/-- An operand is read from its words, if no postfix operator follows. -/
theorem Operand.phrase (hd : ReadsBack d levels) (h : Operand d e) (hlevels : e.nesting ≤ levels)
    (hafter : Phrase.postfixOp? d ws = none) :
    Phrase.Operand d (Phrase.Operation d levels) (e.yield ++ ws) e ws := by
  cases h with
  | bare h => exact h.phrase hd hlevels hafter
  | @postfixed op head allowed apart h =>
    rw [Expr.yield, List.append_assoc]
    exact h.phrase hd hlevels (postfixOp?_symbol allowed apart ws)

/-- The further operands of a chain are read from their words. -/
theorem phrase_links (hd : ReadsBack d levels) (p : InfixOp × Expr)
    (rest : List (InfixOp × Expr)) (hallowed : ∀ q ∈ p :: rest, d.infixes.allows q.1 = true)
    (h : ∀ q ∈ p :: rest, Operand d q.2) (hlevels : ∀ q ∈ p :: rest, q.2.nesting ≤ levels)
    (hstop : Stops d ws) :
    Phrase.Links d (Phrase.Operand d (Phrase.Operation d levels)) p.1
      (p.2.yield ++ (Expr.yieldLinks rest ++ ws)) (p :: rest) ws := by
  induction rest generalizing p with
  | nil =>
    exact .last ((h p (by simp)).phrase hd (hlevels p (by simp)) hstop.after) hstop.infixes
  | cons q rest ih =>
    -- an operand starts after the next operator, so that is no postfix operator
    have hq := h q (by simp)
    have hqallowed := hallowed q (by simp)
    have hwords : Expr.yieldLinks (q :: rest) ++ ws =
        q.1.symbol :: (q.2.yield ++ (Expr.yieldLinks rest ++ ws)) := by simp [Expr.yieldLinks]
    have hafter := postfixOp?_infix hqallowed (hq.startsOperand (Expr.yieldLinks rest ++ ws))
    have hlinks := ih q (fun r hr => hallowed r (List.mem_cons_of_mem p hr))
      (fun r hr => h r (List.mem_cons_of_mem p hr))
      (fun r hr => hlevels r (List.mem_cons_of_mem p hr))
    rw [hwords]
    exact .more ((h p (by simp)).phrase hd (hlevels p (by simp)) hafter)
      (Allowed.spelled?_symbol hqallowed) hlinks

/-- The further terms of a sequence are read from their words. -/
theorem phrase_items (hd : ReadsBack d levels) {separator : Separator}
    (hsymbolic : separator.isWhitespace = false)
    (hallowed : d.separators.allows separator = true) (t : Expr) (ts : List Expr)
    (h : ∀ u ∈ t :: ts, Operand d u) (hlevels : ∀ u ∈ t :: ts, u.nesting ≤ levels)
    (hstop : Stops d ws) :
    Phrase.Items d (Phrase.Operand d (Phrase.Operation d levels)) separator
      (t.yield ++ (Expr.yieldTerms separator ts ++ ws)) (t :: ts) ws := by
  induction ts generalizing t with
  | nil =>
    exact .last ((h t (by simp)).phrase hd (hlevels t (by simp)) hstop.after) hstop.separators
  | cons u ts ih =>
    have hwords : Expr.yieldTerms separator (u :: ts) ++ ws =
        separator.symbol :: (u.yield ++ (Expr.yieldTerms separator ts ++ ws)) := by
      simp [Expr.yieldTerms, Separator.words, hsymbolic]
    have hitems := ih u (fun v hv => h v (List.mem_cons_of_mem t hv))
      (fun v hv => hlevels v (List.mem_cons_of_mem t hv))
    rw [hwords]
    exact .more ((h t (by simp)).phrase hd (hlevels t (by simp)) (postfixOp?_separator separator _))
      (Allowed.spelled?_symbol hallowed) hitems

/-- A chain is read from its words, whatever its length. -/
theorem phrase_chain (hd : ReadsBack d levels) (hfirst : Operand d e) (p : InfixOp × Expr)
    (rest : List (InfixOp × Expr)) (hallowed : ∀ q ∈ p :: rest, d.infixes.allows q.1 = true)
    (h : ∀ q ∈ p :: rest, Operand d q.2) (hlevels : e.nesting ≤ levels)
    (hlevels' : ∀ q ∈ p :: rest, q.2.nesting ≤ levels) (hstop : Stops d ws) :
    Phrase.Run d (Phrase.Operand d (Phrase.Operation d levels))
      (e.yield ++ (Expr.yieldLinks (p :: rest) ++ ws)) (.ofRun e (p :: rest)) ws := by
  have hp := h p (by simp)
  have hpallowed := hallowed p (by simp)
  have hwords : Expr.yieldLinks (p :: rest) ++ ws =
      p.1.symbol :: (p.2.yield ++ (Expr.yieldLinks rest ++ ws)) := by simp [Expr.yieldLinks]
  have hafter := postfixOp?_infix hpallowed (hp.startsOperand (Expr.yieldLinks rest ++ ws))
  rw [hwords]
  exact .chain (hfirst.phrase hd hlevels hafter) (Allowed.spelled?_symbol hpallowed)
    (phrase_links hd p rest hallowed h hlevels' hstop)

/-- By induction on the levels, canonical operations are read from their words. -/
theorem phrase_operation (levels : Nat) : ReadsBack d levels := by
  induction levels with
  | zero => intro e ws _ hlevels; omega
  | succ levels ih =>
    intro e ws h hlevels hstop
    -- the operands of the operation have all but one of the levels for their brackets
    have hlevels : e.nesting ≤ levels := by omega
    show Phrase.Run d (Phrase.Operand d (Phrase.Operation d levels)) _ _ _
    cases h with
    | single h => exact .single (h.phrase ih hlevels hstop.after) hstop.infixes hstop.separators
    | @binary left right op hleft hallowed hright =>
      -- two operands are a chain with one link
      rw [Expr.nesting] at hlevels
      have hrun := phrase_chain ih hleft (op, right) [] (by simpa using hallowed)
        (by simpa using hright) (by omega) (by simp; omega) hstop
      have hwords : (Expr.binary left op right).yield ++ ws =
          left.yield ++ (Expr.yieldLinks [(op, right)] ++ ws) := by
        simp [Expr.yield, Expr.yieldLinks]
      rw [hwords]
      exact hrun
    | @chain first rest hfirst hlong hallowed hrest =>
      rw [Expr.nesting] at hlevels
      rcases rest with _ | ⟨p, _ | ⟨q, rest⟩⟩
      · simp at hlong
      · simp at hlong
      · have hrun := phrase_chain ih hfirst p (q :: rest) hallowed hrest (by omega)
          (fun r hr => (Expr.nesting_le_nestingLinks hr).trans (by omega)) hstop
        rw [Expr.yield, List.append_assoc]
        exact hrun
    | @sequence terms separator hlong hsymbolic hallowed hcolon hterms =>
      rw [Expr.nesting] at hlevels
      have hnesting : ∀ t ∈ terms, t.nesting ≤ levels :=
        fun t ht => (Expr.nesting_le_nestingTerms ht).trans hlevels
      rcases terms with _ | ⟨t, _ | ⟨u, ts⟩⟩
      · simp at hlong
      · simp at hlong
      · have hwords : (Expr.sequence (t :: u :: ts) separator).yield ++ ws = t.yield ++
            (separator.symbol :: (u.yield ++ (Expr.yieldTerms separator ts ++ ws))) := by
          simp [Expr.yield, Expr.yieldTerms, Separator.words, hsymbolic]
        have hitems := phrase_items ih hsymbolic hallowed u ts
          (fun v hv => hterms v (List.mem_cons_of_mem t hv))
          (fun v hv => hnesting v (List.mem_cons_of_mem t hv)) hstop
        rw [hwords]
        exact .sequence ((hterms t (by simp)).phrase ih (hnesting t (by simp))
          (postfixOp?_separator separator _)) (leading?_infix_separator hcolon _)
          (Allowed.spelled?_symbol hallowed) hsymbolic hitems

end Phrases

end Canonical

/-! ## Sources -/

namespace Grammar

/-- Every canonical tree is read back from its rendering, if the nesting of operations may be one
more than the nesting of brackets in the tree. -/
theorem parseExpression_render (g : Grammar) (e : Expr) (h : Canonical.Operation g.dialect e)
    (hdepth : 1 + e.nesting ≤ g.maxDepth) : g.parseExpression e.render = .ok e := by
  have hwords : words g.dialect (Lexeme.texts e.render) = e.yield := h.legible.renders.words
  have hphrase := Canonical.phrase_operation g.maxDepth h (by omega) (Canonical.stops_nil g.dialect)
  rw [List.append_nil] at hphrase
  unfold parseExpression
  rw [parseWhole_iff_phrase (reads_operation g 0), hwords]
  exact hphrase

/-- A chain with a prefix and a postfix operator, and a sequence in brackets, with just enough
levels. -/
theorem parseExpression_render_nested :
    ({ maxDepth := 2 } : Grammar).parseExpression
      (Expr.chain (.prefixed .minus (.identifier "a".toList))
        [(.plus, .postfixed (.identifier "b".toList) .plus2),
          (.mult, .bracketed .square (.sequence [.numeric "1".toList,
            .literal .double " , ".toList] .comma))]).render =
      .ok (.chain (.prefixed .minus (.identifier "a".toList))
        [(.plus, .postfixed (.identifier "b".toList) .plus2),
          (.mult, .bracketed .square (.sequence [.numeric "1".toList,
            .literal .double " , ".toList] .comma))]) := by
  refine parseExpression_render { maxDepth := 2 } _ ?_ (by decide)
  have ha : Canonical.Term Dialect.full (.identifier "a".toList) := .identifier (by decide) rfl
  have hb : Canonical.Term Dialect.full (.identifier "b".toList) := .identifier (by decide) rfl
  have hone : Canonical.Term Dialect.full (.numeric "1".toList) := .numeric (by decide) rfl
  have hquoted : Canonical.Term Dialect.full (.literal .double " , ".toList) := by
    refine .literal rfl ?_
    intro c hc
    obtain rfl := List.mem_singleton.1 hc
    decide
  have hsequence : Canonical.Operation Dialect.full
      (.sequence [.numeric "1".toList, .literal .double " , ".toList] .comma) := by
    refine .sequence (by decide) rfl rfl (by decide) ?_
    intro t ht
    rcases List.mem_cons.1 ht with rfl | ht
    · exact .bare (.bare hone)
    · obtain rfl := List.mem_singleton.1 ht
      exact .bare (.bare hquoted)
  refine .chain (.bare (.prefixed rfl ha)) (by decide) (fun _ _ => rfl) ?_
  intro p hp
  rcases List.mem_cons.1 hp with rfl | hp
  · refine .postfixed rfl ?_ (.bare hb)
    intro op' _
    cases op' <;> decide
  · obtain rfl := List.mem_singleton.1 hp
    exact .bare (.bare (.bracketed (by decide) rfl hsequence))

end Grammar

end FlatExpr
