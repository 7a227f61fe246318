import FlatExpr.Vocabulary.Delimiter
import FlatExpr.Vocabulary.Operator

/-!
# Expression trees

There is no precedence: a run of operands is one flat node, however many operators it has. The type
allows any shape, also chains and sequences without operands; which shapes a reading produces is a
property of the grammar.

`Expr.induction` is induction over trees with the hypothesis for every operand of a chain and every
term of a sequence. Equality of trees is decidable.
-/

namespace FlatExpr

/-- An expression. -/
inductive Expr where
  /-- A name. -/
  | identifier (name : Text)
  /-- A number, kept as it was written. -/
  | numeric (value : Text)
  /-- The text between two quotation marks. -/
  | literal (quote : Quote) (value : Text)
  /-- An operator before its operand. -/
  | prefixed (op : PrefixOp) (operand : Expr)
  /-- An operator after its operand. -/
  | postfixed (operand : Expr) (op : PostfixOp)
  /-- An operator between two operands. -/
  | binary (left : Expr) (op : InfixOp) (right : Expr)
  /-- A run of operands: the first, and each further one with the operator before it. -/
  | chain (first : Expr) (rest : List (InfixOp × Expr))
  /-- An expression in a pair of brackets. -/
  | bracketed (bracket : Bracket) (inner : Expr)
  /-- Terms with one kind of separator between them. -/
  | sequence (terms : List Expr) (separator : Separator)

namespace Expr

/-! ## Induction -/

section Induction

variable {motive : Expr → Prop}
  (identifier : ∀ name, motive (.identifier name))
  (numeric : ∀ value, motive (.numeric value))
  (literal : ∀ quote value, motive (.literal quote value))
  (prefixed : ∀ op operand, motive operand → motive (.prefixed op operand))
  (postfixed : ∀ operand op, motive operand → motive (.postfixed operand op))
  (binary : ∀ left op right, motive left → motive right → motive (.binary left op right))
  (chain : ∀ first rest, motive first → (∀ p ∈ rest, motive p.2) → motive (.chain first rest))
  (bracketed : ∀ bracket inner, motive inner → motive (.bracketed bracket inner))
  (sequence : ∀ terms separator, (∀ t ∈ terms, motive t) → motive (.sequence terms separator))

include identifier numeric literal prefixed postfixed binary chain bracketed sequence

/-- A property of trees holds if each node has it whenever its parts do. -/
@[elab_as_elim] theorem induction (e : Expr) : motive e :=
  @Expr.rec motive (fun rest => ∀ p ∈ rest, motive p.2) (fun terms => ∀ t ∈ terms, motive t)
    (fun p => motive p.2)
    identifier numeric literal prefixed postfixed binary chain bracketed sequence
    (fun _ h => nomatch h) (fun _ _ hp hrest => List.forall_mem_cons.2 ⟨hp, hrest⟩)
    (fun _ h => nomatch h) (fun _ _ ht hterms => List.forall_mem_cons.2 ⟨ht, hterms⟩)
    (fun _ _ h => h) e

end Induction

/-! ## Equality -/

mutual

/-- Whether two trees are the same. -/
def same : Expr → Expr → Bool
  | .identifier n, .identifier m => n == m
  | .numeric v, .numeric w => v == w
  | .literal q v, .literal r w => q == r && v == w
  | .prefixed o a, .prefixed p b => o == p && same a b
  | .postfixed a o, .postfixed b p => same a b && o == p
  | .binary a o b, .binary c p d => same a c && o == p && same b d
  | .chain a r, .chain b s => same a b && sameLinks r s
  | .bracketed k a, .bracketed l b => k == l && same a b
  | .sequence r s, .sequence t u => sameTerms r t && s == u
  | _, _ => false

/-- Whether two runs of further operands are the same. -/
def sameLinks : List (InfixOp × Expr) → List (InfixOp × Expr) → Bool
  | [], [] => true
  | (o, a) :: r, (p, b) :: s => o == p && same a b && sameLinks r s
  | _, _ => false

/-- Whether two lists of terms are the same. -/
def sameTerms : List Expr → List Expr → Bool
  | [], [] => true
  | a :: r, b :: s => same a b && sameTerms r s
  | _, _ => false

end

/-- Runs of further operands are the same exactly when they are equal, if that holds of their
operands. -/
theorem sameLinks_iff (r : List (InfixOp × Expr))
    (h : ∀ p ∈ r, ∀ b, same p.2 b = true ↔ p.2 = b) (s : List (InfixOp × Expr)) :
    sameLinks r s = true ↔ r = s := by
  induction r generalizing s with
  | nil => cases s <;> simp [sameLinks]
  | cons p r ih =>
    cases s with
    | nil => simp [sameLinks]
    | cons q s =>
      have hp := h p (by simp)
      have hr := ih (fun x hx => h x (by simp [hx])) s
      simp [sameLinks, hp, hr, Prod.ext_iff]

/-- Lists of terms are the same exactly when they are equal, if that holds of their terms. -/
theorem sameTerms_iff (r : List Expr) (h : ∀ a ∈ r, ∀ b, same a b = true ↔ a = b)
    (s : List Expr) : sameTerms r s = true ↔ r = s := by
  induction r generalizing s with
  | nil => cases s <;> simp [sameTerms]
  | cons a r ih =>
    cases s with
    | nil => simp [sameTerms]
    | cons b s => simp [sameTerms, h a (by simp), ih (fun x hx => h x (by simp [hx])) s]

/-- Trees are the same exactly when they are equal. -/
theorem same_iff (a b : Expr) : same a b = true ↔ a = b := by
  induction a using Expr.induction generalizing b with
  | identifier | numeric | literal => cases b <;> simp [same]
  | prefixed _ _ ih | postfixed _ _ ih | bracketed _ _ ih => cases b <;> simp [same, ih]
  | binary _ _ _ ihl ihr => cases b <;> simp [same, ihl, ihr, and_assoc]
  | chain _ _ ihf ihr => cases b <;> simp [same, ihf, sameLinks_iff _ ihr]
  | sequence _ _ ih => cases b <;> simp [same, sameTerms_iff _ ih]

instance : DecidableEq Expr := fun a b => decidable_of_iff _ (same_iff a b)

/-! ## Shapes -/

/-- Whether the tree is a sequence. -/
def isSequence : Expr → Bool
  | .sequence _ _ => true
  | _ => false

/-- The tree of a run of operands: the operand itself, a binary node, or a chain. -/
def ofRun (first : Expr) : List (InfixOp × Expr) → Expr
  | [] => first
  | [(op, right)] => .binary first op right
  | rest => .chain first rest

end Expr

end FlatExpr
