import FlatExpr.Proofs.Yield

/-!
# Phrases in front of more words

A phrase is read in the same way wherever it stands, as long as the words after it look the same.
How far that look goes is the matter here. Whether a word is a postfix operator may depend on the
word after it, so that words can change the reading of the phrase before them; but not past a word
that is no postfix operator. Where such a word follows a phrase, what comes after it does not matter
(`Reading.Extends`), and for a bracketed operation the closing bracket is such a word. So a term
that consists of one word, of a literal or of brackets is read in the same way whatever follows it
(`term_append`).
-/

namespace FlatExpr

/-- More words at the end leave the first word as it is. -/
theorem Allowed.leading?_append {α : Type} [Vocabulary α] [DecidableEq α] (allowed : Allowed α)
    {ws : List Text} (hne : ws ≠ []) (rest : List Text) :
    allowed.leading? (ws ++ rest) = allowed.leading? ws := by
  cases ws with
  | nil => exact absurd rfl hne
  | cons w ws => rfl

namespace Phrase

variable {d : Dialect} {ws ws' : List Text}

/-! ## What follows a phrase -/

/-- Some word among them is no postfix operator, so that words after it are not looked at. -/
def Guarded (d : Dialect) (ws : List Text) : Prop := ∃ w ∈ ws, d.postfixes.spelled? w = none

namespace Guarded

theorem ne_nil (h : Guarded d ws) : ws ≠ [] := by
  obtain ⟨w, hw, -⟩ := h
  exact List.ne_nil_of_mem hw

theorem append_left (h : Guarded d ws) (before : List Text) : Guarded d (before ++ ws) := by
  obtain ⟨w, hw, hnone⟩ := h
  exact ⟨w, List.mem_append_right before hw, hnone⟩

/-- The words past an operator are some of the words. -/
theorem of_past {α : Type} {op : Option α} (h : Guarded d (past op ws)) : Guarded d ws := by
  obtain ⟨w, hw, hnone⟩ := h
  refine ⟨w, ?_, hnone⟩
  cases op with
  | none => exact hw
  | some _ => exact List.mem_of_mem_tail hw

/-- No closing bracket is a postfix operator. -/
theorem closing (b : Bracket) (ws : List Text) : Guarded d (b.closing :: ws) :=
  ⟨b.closing, List.mem_cons_self, by cases b <;> rfl⟩

end Guarded

theorem past_append {α : Type} (op : Option α) (hne : ws ≠ []) (rest : List Text) :
    past op (ws ++ rest) = past op ws ++ rest := by
  cases op with
  | none => rfl
  | some _ => exact List.tail_append_of_ne_nil hne

/-- Whether a postfix operator comes first does not depend on what follows guarded words. -/
theorem postfixOp?_append (h : Guarded d ws) (rest : List Text) :
    postfixOp? d (ws ++ rest) = postfixOp? d ws := by
  match ws, h with
  | [w], ⟨w', hw', hnone⟩ =>
    -- the word is no postfix operator, whatever follows
    obtain rfl := List.mem_singleton.1 hw'
    have hlead : ∀ ws, postfixOp? d (w' :: ws) = none := by
      intro ws
      rcases postfixOp?_cases d (w' :: ws) with h | h
      · rw [← h]
        exact hnone
      · exact h
    rw [List.singleton_append, hlead, hlead]
  | w :: w' :: ws, _ => rfl

end Phrase

/-! ## Phrases that can be extended -/

/-- More words can follow the phrase, where those that do follow it are guarded. -/
def Reading.Extends {α : Type} (d : Dialect) (phrase : Reading α) : Prop :=
  ∀ {ws a ws'}, phrase ws a ws' → Phrase.Guarded d ws' →
    ∀ rest, phrase (ws ++ rest) a (ws' ++ rest)

namespace Phrase

variable {d : Dialect} {operation operand : Reading Expr} {ws ws' : List Text} {e : Expr}

theorem literal_append (h : Literal d ws e ws') (rest : List Text) :
    Literal d (ws ++ rest) e (ws' ++ rest) := by
  cases h with
  | mk hallowed hclear => exact .mk hallowed hclear

/-- The closing bracket guards the operation in it. -/
theorem bracketed_append (h : Reading.Extends d operation)
    (hphrase : Bracketed d operation ws e ws') (rest : List Text) :
    Bracketed d operation (ws ++ rest) e (ws' ++ rest) := by
  cases hphrase with
  | @mk b inner _ ws' hallowed hinside =>
    exact .mk hallowed (h hinside (.closing b ws') rest)

/-- A term that does not start with a prefix operator can be followed by any words; one that does is
an operation. -/
theorem term_append (h : Reading.Extends d operation) (hterm : Term d operation ws e ws')
    (hguard : d.prefixes.leading? ws = none ∨ Guarded d ws') (rest : List Text) :
    Term d operation (ws ++ rest) e (ws' ++ rest) := by
  cases hterm with
  | identifier shape allowed => exact .identifier shape allowed
  | numeric shape allowed => exact .numeric shape allowed
  | literal hliteral => exact .literal (literal_append hliteral rest)
  | bracketed opens hbracketed =>
    refine .bracketed ?_ (bracketed_append h hbracketed rest)
    cases hbracketed with
    | mk => exact opens
  | @prefixed _ _ _ op lead hoperation =>
    have hguard : Guarded d ws' := hguard.resolve_left (by rw [lead]; exact nofun)
    have hne : ws ≠ [] := by
      obtain ⟨ws₁, rfl, -⟩ := (Allowed.leading?_eq_some_iff _ _ _).1 lead
      exact List.cons_ne_nil _ _
    have hlead : d.prefixes.leading? (ws ++ rest) = some op := by
      rw [Allowed.leading?_append _ hne, lead]
    exact .prefixed hlead (h hoperation hguard rest)

theorem extends_operand (h : Reading.Extends d operation) (hspells : Reading.Spells operation) :
    Reading.Extends d (Operand d operation) := by
  intro ws e ws' hoperand hguard rest
  cases hoperand with
  | @mk _ ws' term hterm =>
    -- what follows the term is guarded, and so is what the operand starts with
    have hguard' : Guarded d ws' := hguard.of_past
    have hne : ws ≠ [] := by
      have hpast : Guarded d (past (d.prefixes.leading? ws) ws) := by
        rw [(spells_term hspells hterm).1]
        exact hguard'.append_left _
      exact hpast.of_past.ne_nil
    have hterm' := term_append h hterm (.inr hguard') rest
    rw [← past_append _ hne] at hterm'
    rw [← past_append _ hguard'.ne_nil]
    exact .of_eq d (Allowed.leading?_append _ hne rest) (postfixOp?_append hguard' rest) hterm'

/-- The words of links are guarded if those after them are. -/
theorem guarded_links (hspells : Reading.Spells operand) {op : InfixOp}
    {links : List (InfixOp × Expr)} (hlinks : Links d operand op ws links ws')
    (hguard : Guarded d ws') : Guarded d (op.symbol :: ws) := by
  rw [spells_links hspells hlinks]
  exact hguard.append_left _

theorem extends_links (h : Reading.Extends d operand) (hspells : Reading.Spells operand)
    (op : InfixOp) : Reading.Extends d (Links d operand op) := by
  intro ws links ws' hlinks hguard rest
  induction hlinks with
  | last hoperand hstop =>
    refine .last (h hoperand hguard rest) ?_
    rw [Allowed.leading?_append _ hguard.ne_nil, hstop]
  | @more op op' ws ws₁ ws' e links hoperand hlead hlinks ih =>
    obtain ⟨ws₂, rfl, -⟩ := (Allowed.leading?_eq_some_iff _ _ _).1 hlead
    exact .more (h hoperand (guarded_links hspells hlinks hguard) rest) hlead (ih hguard)

/-- The words of the terms of a sequence are guarded if those after them are. -/
theorem guarded_items (hspells : Reading.Spells operand) {separator : Separator} {es : List Expr}
    (hsymbolic : separator.isWhitespace = false) (hitems : Items d operand separator ws es ws')
    (hguard : Guarded d ws') : Guarded d (separator.symbol :: ws) := by
  rw [spells_items hspells hsymbolic hitems]
  exact hguard.append_left _

theorem extends_items (h : Reading.Extends d operand) (hspells : Reading.Spells operand)
    {separator : Separator} (hsymbolic : separator.isWhitespace = false) :
    Reading.Extends d (Items d operand separator) := by
  intro ws es ws' hitems hguard rest
  induction hitems with
  | last hoperand hstop =>
    refine .last (h hoperand hguard rest) ?_
    rw [Allowed.leading?_append _ hguard.ne_nil, hstop]
  | @more ws ws₁ ws' e es hoperand hlead hitems ih =>
    obtain ⟨ws₂, rfl, -⟩ := (Allowed.leading?_eq_some_iff _ _ _).1 hlead
    exact .more (h hoperand (guarded_items hspells hsymbolic hitems hguard) rest) hlead (ih hguard)

theorem extends_run (h : Reading.Extends d operand) (hspells : Reading.Spells operand) :
    Reading.Extends d (Run d operand) := by
  intro ws e ws' hrun hguard rest
  cases hrun with
  | single hoperand hstop halone =>
    refine .single (h hoperand hguard rest) ?_ ?_
    · rw [Allowed.leading?_append _ hguard.ne_nil, hstop]
    · rw [Allowed.leading?_append _ hguard.ne_nil, halone]
  | @chain _ ws₁ _ left op links hoperand hlead hlinks =>
    obtain ⟨ws₂, rfl, -⟩ := (Allowed.leading?_eq_some_iff _ _ _).1 hlead
    exact .chain (h hoperand (guarded_links hspells hlinks hguard) rest) hlead
      (extends_links h hspells op hlinks hguard rest)
  | @sequence _ ws₁ _ first separator es hoperand hstop hlead hsymbolic hitems =>
    obtain ⟨ws₂, rfl, -⟩ := (Allowed.leading?_eq_some_iff _ _ _).1 hlead
    exact .sequence (h hoperand (guarded_items hspells hsymbolic hitems hguard) rest) hstop hlead
      hsymbolic (extends_items h hspells hsymbolic hitems hguard rest)

/-- By induction on the levels of nesting, operations can be extended. -/
theorem extends_operation (levels : Nat) : Reading.Extends d (Operation d levels) := by
  induction levels with
  | zero => intro ws e ws' h; exact h.elim
  | succ levels ih =>
    have hspells : Reading.Spells (Operation d levels) := spells_operation levels
    show Reading.Extends d (Run d (Operand d (Operation d levels)))
    exact extends_run (extends_operand ih hspells) (spells_operand hspells)

end Phrase

end FlatExpr
