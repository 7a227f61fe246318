import FlatExpr.Proofs.Shapes

/-!
# Levels of nesting

How many levels of nesting a reading needs can be told from the tree that it produces. A level is
used by an operation in brackets and by one that is the operand of a prefix operator; the depth of a
tree is the largest number of these on a path from its root to a leaf (`Expr.depth`). An operation
takes one level more than its depth: with fewer levels it is not read, with any other number it is
read in the same way (`Phrase.depth_operation`).
-/

namespace FlatExpr

/-! ## Depth -/

namespace Expr

mutual

/-- The largest number, over the paths from the root to a leaf, of brackets and of prefix operators
before an operand that starts with a prefix operator itself. -/
def depth : Expr → Nat
  | .identifier _ => 0
  | .numeric _ => 0
  | .literal _ _ => 0
  | .prefixed _ operand => depth operand + if operand.startsWithOperator then 1 else 0
  | .postfixed operand _ => depth operand
  | .binary left _ right => max (depth left) (depth right)
  | .chain first rest => max (depth first) (depthLinks rest)
  | .bracketed _ inner => depth inner + 1
  | .sequence terms _ => depthTerms terms

/-- The largest depth of some further operands. -/
def depthLinks : List (InfixOp × Expr) → Nat
  | [] => 0
  | (_, operand) :: rest => max (depth operand) (depthLinks rest)

/-- The largest depth of some terms. -/
def depthTerms : List Expr → Nat
  | [] => 0
  | term :: terms => max (depth term) (depthTerms terms)

end

theorem depthLinks_le_iff {rest : List (InfixOp × Expr)} {n : Nat} :
    depthLinks rest ≤ n ↔ ∀ p ∈ rest, p.2.depth ≤ n := by
  induction rest with
  | nil => simp [depthLinks]
  | cons p rest ih => rw [depthLinks, Nat.max_le, ih, List.forall_mem_cons]

theorem depthTerms_le_iff {terms : List Expr} {n : Nat} :
    depthTerms terms ≤ n ↔ ∀ t ∈ terms, t.depth ≤ n := by
  induction terms with
  | nil => simp [depthTerms]
  | cons t terms ih => rw [depthTerms, Nat.max_le, ih, List.forall_mem_cons]

/-- Whatever node a run of operands becomes, its depth is the largest of theirs. -/
theorem depth_ofRun (first : Expr) (rest : List (InfixOp × Expr)) :
    (ofRun first rest).depth = max first.depth (depthLinks rest) := by
  match rest with
  | [] => simp [ofRun, depthLinks]
  | [(op, right)] => simp [ofRun, depth, depthLinks]
  | p :: q :: rest => simp [ofRun, depth]

/-- A postfix operator adds nothing to the depth. -/
theorem depth_attach (before : Option PrefixOp) (term : Expr) (after : Option PostfixOp) :
    (Grammar.attach before term after).depth = (Grammar.attach before term none).depth := by
  cases after with
  | none => rfl
  | some op => cases before <;> simp [Grammar.attach, depth]

end Expr

/-- A term of that shape does not start with a prefix operator. -/
theorem Shape.Term.startsWithOperator {d : Dialect} {e : Expr} (h : Shape.Term d e) :
    e.startsWithOperator = false := by
  cases h <;> rfl

/-! ## Readings and their depth -/

namespace Phrase

variable {d : Dialect} {n : Nat} {ws ws' : List Text} {e : Expr}

/-- Operations take one level more than their depth. -/
def DepthExact (d : Dialect) (n : Nat) : Prop :=
  ∀ {ws e ws'}, Operation d n ws e ws' →
    e.depth < n ∧ ∀ m, e.depth < m → Operation d m ws e ws'

/-- A term, counted with the level that it takes if it is an operation. -/
theorem depth_term (h : DepthExact d n) (hterm : Term d (Operation d n) ws e ws') :
    (e.depth + if e.startsWithOperator then 1 else 0) ≤ n ∧
      ∀ m, (e.depth + if e.startsWithOperator then 1 else 0) ≤ m →
        Term d (Operation d m) ws e ws' := by
  cases hterm with
  | identifier shape allowed =>
    exact ⟨Nat.zero_le n, fun m _ => .identifier shape allowed⟩
  | numeric shape allowed => exact ⟨Nat.zero_le n, fun m _ => .numeric shape allowed⟩
  | literal hliteral =>
    refine ⟨?_, fun m _ => .literal hliteral⟩
    cases hliteral
    exact Nat.zero_le n
  | bracketed opens hbracketed =>
    cases hbracketed with
    | @mk b inner _ _ allowed inside =>
      obtain ⟨hlt, hread⟩ := h inside
      have hdepth : (Expr.bracketed b inner).depth = inner.depth + 1 := by rw [Expr.depth]
      have hstarts : (Expr.bracketed b inner).startsWithOperator = false := rfl
      simp only [hdepth, hstarts, Bool.false_eq_true, if_false, Nat.add_zero]
      exact ⟨hlt, fun m hm => .bracketed opens (.mk allowed (hread m hm))⟩
  | prefixed lead hoperation =>
    -- the level of this operation is counted where it is the operand of a prefix operator
    obtain ⟨hlt, hread⟩ := h hoperation
    have hstarts := (shape_operation d n hoperation).2 _ lead
    simp only [hstarts, if_true]
    exact ⟨hlt, fun m hm => .prefixed lead (hread m hm)⟩

/-- The depth of a term with the prefix operator before it, if there is one. -/
theorem depth_attach_prefix {before : Option PrefixOp} (hbefore : d.prefixes.leading? ws = before)
    (hterm : Term d (Operation d n) (past before ws) e ws') :
    (Grammar.attach before e none).depth = e.depth + if e.startsWithOperator then 1 else 0 := by
  cases before with
  | some op => rw [Grammar.attach, Expr.depth]
  | none =>
    -- without a prefix operator before it the term does not start with one
    have hstarts : e.startsWithOperator = false := by
      rcases shape_term (shape_operation d n) hterm with hshape | ⟨-, -, hlead⟩
      · exact hshape.startsWithOperator
      · exact absurd hbefore hlead
    rw [hstarts]
    rfl

theorem depth_operand (h : DepthExact d n) (hoperand : Operand d (Operation d n) ws e ws') :
    e.depth ≤ n ∧ ∀ m, e.depth ≤ m → Operand d (Operation d m) ws e ws' := by
  cases hoperand with
  | @mk _ ws' term hterm =>
    rw [Expr.depth_attach, depth_attach_prefix rfl hterm]
    obtain ⟨hle, hread⟩ := depth_term h hterm
    exact ⟨hle, fun m hm => .mk (hread m hm)⟩

theorem depth_links (h : DepthExact d n) {op : InfixOp} {rest : List (InfixOp × Expr)}
    (hlinks : Links d (Operand d (Operation d n)) op ws rest ws') :
    Expr.depthLinks rest ≤ n ∧
      ∀ m, Expr.depthLinks rest ≤ m → Links d (Operand d (Operation d m)) op ws rest ws' := by
  simp only [Expr.depthLinks_le_iff]
  induction hlinks with
  | last hoperand stop =>
    obtain ⟨hle, hread⟩ := depth_operand h hoperand
    simp only [List.forall_mem_singleton]
    exact ⟨hle, fun m hm => .last (hread m hm) stop⟩
  | more hoperand lead _ ih =>
    obtain ⟨hle, hread⟩ := depth_operand h hoperand
    simp only [List.forall_mem_cons]
    exact ⟨⟨hle, ih.1⟩, fun m hm => .more (hread m hm.1) lead (ih.2 m hm.2)⟩

theorem depth_items (h : DepthExact d n) {separator : Separator} {es : List Expr}
    (hitems : Items d (Operand d (Operation d n)) separator ws es ws') :
    Expr.depthTerms es ≤ n ∧
      ∀ m, Expr.depthTerms es ≤ m →
        Items d (Operand d (Operation d m)) separator ws es ws' := by
  simp only [Expr.depthTerms_le_iff]
  induction hitems with
  | last hoperand stop =>
    obtain ⟨hle, hread⟩ := depth_operand h hoperand
    simp only [List.forall_mem_singleton]
    exact ⟨hle, fun m hm => .last (hread m hm) stop⟩
  | more hoperand lead _ ih =>
    obtain ⟨hle, hread⟩ := depth_operand h hoperand
    simp only [List.forall_mem_cons]
    exact ⟨⟨hle, ih.1⟩, fun m hm => .more (hread m hm.1) lead (ih.2 m hm.2)⟩

/-- A run of operands is as deep as the deepest of them. -/
theorem depth_run (h : DepthExact d n) (hrun : Run d (Operand d (Operation d n)) ws e ws') :
    e.depth ≤ n ∧ ∀ m, e.depth ≤ m → Run d (Operand d (Operation d m)) ws e ws' := by
  cases hrun with
  | single hoperand stop alone =>
    obtain ⟨hle, hread⟩ := depth_operand h hoperand
    exact ⟨hle, fun m hm => .single (hread m hm) stop alone⟩
  | chain hoperand lead links =>
    obtain ⟨hle, hread⟩ := depth_operand h hoperand
    obtain ⟨hle', hread'⟩ := depth_links h links
    simp only [Expr.depth_ofRun, Nat.max_le]
    exact ⟨⟨hle, hle'⟩, fun m hm => .chain (hread m hm.1) lead (hread' m hm.2)⟩
  | sequence hoperand stop lead symbolic items =>
    obtain ⟨hle, hread⟩ := depth_operand h hoperand
    obtain ⟨hle', hread'⟩ := depth_items h items
    simp only [Expr.depth, Expr.depthTerms, Nat.max_le]
    exact ⟨⟨hle, hle'⟩, fun m hm => .sequence (hread m hm.1) stop lead symbolic (hread' m hm.2)⟩

/-- By induction on the levels, operations take one level more than their depth. -/
theorem depth_operation (d : Dialect) (n : Nat) : DepthExact d n := by
  induction n with
  | zero => intro ws e ws' h; exact h.elim
  | succ n ih =>
    intro ws e ws' hrun
    obtain ⟨hle, hread⟩ := depth_run ih hrun
    refine ⟨Nat.lt_succ_of_le hle, ?_⟩
    intro m hm
    obtain ⟨m, rfl⟩ : ∃ k, m = k + 1 := ⟨m - 1, by omega⟩
    exact hread m (by omega)

/-- An operation is read with more levels, too. -/
theorem operation_of_le {m : Nat} (h : Operation d n ws e ws') (hle : n ≤ m) :
    Operation d m ws e ws' := by
  obtain ⟨hlt, hread⟩ := depth_operation d n h
  exact hread m (by omega)

end Phrase

/-! ## Sources -/

namespace Grammar

/-- Where a source is read as an operation under some limit, it is so under exactly the limits above
the depth of the tree. -/
theorem parseExpression_iff_depth {d : Dialect} {source : Text} {e : Expr} {n : Nat}
    (h : (⟨d, n⟩ : Grammar).parseExpression source = .ok e) (m : Nat) :
    (⟨d, m⟩ : Grammar).parseExpression source = .ok e ↔ e.depth < m := by
  have hphrase : ∀ k, (⟨d, k⟩ : Grammar).parseExpression source = .ok e ↔
      Phrase.Operation d k (words d (Lexeme.texts source)) e [] :=
    fun k => parseWhole_iff_phrase (reads_operation ⟨d, k⟩ 0)
  rw [hphrase] at h ⊢
  constructor
  · intro hm
    exact (Phrase.depth_operation d m hm).1
  · exact (Phrase.depth_operation d n h).2 m

end Grammar

end FlatExpr
