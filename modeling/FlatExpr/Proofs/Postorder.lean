import Mathlib.Tactic.SplitIfs
import FlatExpr.Evaluator.Basic

/-!
# Evaluation in postorder

The nodes of a tree can be listed such that each stands after all nodes of its parts, and the parts
one after the other from left to right (`Expr.postorder_eq`). `Evaluator.exec` works off such a list
with a stack: a node takes as many values from it as it has parts, and puts its own value in their
place. `Evaluator.exec_postorder` shows that this is what evaluation does, whatever the callbacks do
besides giving values. So they are run in the order of the list, once for each node; an evaluator
that keeps a log of its callbacks ends up with the list itself (`Evaluator.eval_logged`).

All shapes of nodes are treated alike. A tree is its parts and the node at its root, its value is
that of the root on the values of the parts (`Evaluator.eval_bind`), and induction goes over the
parts (`Expr.parts_induction`). Only these few facts look at the shapes.
-/

namespace FlatExpr

/-! ## Listing the nodes of a tree -/

/-- A node without its parts. -/
inductive Node where
  /-- A name. -/
  | identifier (name : Text)
  /-- A number as it was written. -/
  | numeric (value : Text)
  /-- A quoted text. -/
  | literal (quote : Quote) (value : Text)
  /-- An operator before its operand. -/
  | prefixed (op : PrefixOp)
  /-- An operator after its operand. -/
  | postfixed (op : PostfixOp)
  /-- An operator between two operands. -/
  | binary (op : InfixOp)
  /-- The operators between the operands of a run. -/
  | chain (ops : List InfixOp)
  /-- A pair of brackets. -/
  | bracketed (bracket : Bracket)
  /-- A sequence of a number of terms. -/
  | sequence (terms : Nat) (separator : Separator)
  deriving DecidableEq

/-- The number of parts that a node has. -/
def Node.arity : Node → Nat
  | .identifier _ | .numeric _ | .literal _ _ => 0
  | .prefixed _ | .postfixed _ | .bracketed _ => 1
  | .binary _ => 2
  | .chain ops => ops.length + 1
  | .sequence terms _ => terms

namespace Expr

/-- The node at the root of a tree. -/
def node : Expr → Node
  | .identifier name => .identifier name
  | .numeric value => .numeric value
  | .literal quote value => .literal quote value
  | .prefixed op _ => .prefixed op
  | .postfixed _ op => .postfixed op
  | .binary _ op _ => .binary op
  | .chain _ rest => .chain (rest.map Prod.fst)
  | .bracketed bracket _ => .bracketed bracket
  | .sequence terms separator => .sequence terms.length separator

/-- The parts of a tree, from left to right. -/
def parts : Expr → List Expr
  | .identifier _ | .numeric _ | .literal _ _ => []
  | .prefixed _ operand | .postfixed operand _ => [operand]
  | .binary left _ right => [left, right]
  | .chain first rest => first :: rest.map Prod.snd
  | .bracketed _ inner => [inner]
  | .sequence terms _ => terms

mutual

/-- The nodes of a tree, each after those of its parts. -/
def postorder : Expr → List Node
  | .identifier name => [.identifier name]
  | .numeric value => [.numeric value]
  | .literal quote value => [.literal quote value]
  | .prefixed op operand => postorder operand ++ [.prefixed op]
  | .postfixed operand op => postorder operand ++ [.postfixed op]
  | .binary left op right => postorder left ++ postorder right ++ [.binary op]
  | .chain first rest => postorder first ++ postorderLinks rest ++ [.chain (rest.map Prod.fst)]
  | .bracketed bracket inner => postorder inner ++ [.bracketed bracket]
  | .sequence terms separator => postorderTerms terms ++ [.sequence terms.length separator]

/-- The nodes of further operands of a chain. -/
def postorderLinks : List (InfixOp × Expr) → List Node
  | [] => []
  | (_, operand) :: rest => postorder operand ++ postorderLinks rest

/-- The nodes of the terms of a sequence. -/
def postorderTerms : List Expr → List Node
  | [] => []
  | term :: terms => postorder term ++ postorderTerms terms

end

theorem postorderLinks_eq (rest : List (InfixOp × Expr)) :
    postorderLinks rest = (rest.map Prod.snd).flatMap postorder := by
  induction rest with
  | nil => rfl
  | cons p rest ih => simp [postorderLinks, ih]

theorem postorderTerms_eq (terms : List Expr) :
    postorderTerms terms = terms.flatMap postorder := by
  induction terms with
  | nil => rfl
  | cons t terms ih => simp [postorderTerms, ih]

/-- The nodes of a tree are those of its parts, from left to right, and then its root. -/
theorem postorder_eq (e : Expr) : e.postorder = e.parts.flatMap postorder ++ [e.node] := by
  cases e <;> simp [postorder, parts, node, postorderLinks_eq, postorderTerms_eq]

theorem arity_node (e : Expr) : e.node.arity = e.parts.length := by
  cases e <;> simp [node, parts, Node.arity]

/-- A property of trees holds if each tree has it whenever its parts do. -/
@[elab_as_elim] theorem parts_induction {motive : Expr → Prop}
    (tree : ∀ e, (∀ p ∈ e.parts, motive p) → motive e) (e : Expr) : motive e := by
  induction e using Expr.induction with
  | identifier | numeric | literal => exact tree _ nofun
  | prefixed _ _ ih | postfixed _ _ ih | bracketed _ _ ih =>
    exact tree _ (List.forall_mem_singleton.2 ih)
  | binary _ _ _ ihl ihr =>
    exact tree _ (List.forall_mem_cons.2 ⟨ihl, List.forall_mem_singleton.2 ihr⟩)
  | chain _ _ ihf ihr => exact tree _ (List.forall_mem_cons.2 ⟨ihf, List.forall_mem_map.2 ihr⟩)
  | sequence _ _ ih => exact tree _ ih

end Expr

/-! ## Working off a list of nodes -/

namespace Evaluator

variable {m : Type → Type} {ν : Type} [Monad m]

/-- The callback of a node on the values of its parts. There is none for another number of values
than the node has parts. -/
def visit (ev : Evaluator m ν) : Node → List ν → Option (m ν)
  | .identifier name, [] => some (ev.identifier name)
  | .numeric value, [] => some (ev.numeric value)
  | .literal quote value, [] => some (ev.literal quote value)
  | .prefixed op, [v] => some (ev.prefixed op v)
  | .postfixed op, [v] => some (ev.postfixed v op)
  | .binary op, [l, r] => some (ev.binary l op r)
  | .chain ops, v :: vs =>
    if vs.length = ops.length then some (ev.chain v (ops.zip vs)) else none
  | .bracketed bracket, [v] => some (ev.bracketed bracket v)
  | .sequence terms separator, vs =>
    if vs.length = terms then some (ev.sequence vs separator) else none
  | _, _ => none

/-- Runs the callbacks of some nodes one after the other on a stack, whose top is its first value.
Each node takes the values of its parts, of which the last one is on top, and leaves its own. The
answer is the stack in the end, or `none` where a node does not find enough values. -/
def exec (ev : Evaluator m ν) : List Node → List ν → m (Option (List ν))
  | [], stack => pure (some stack)
  | n :: ns, stack =>
    match ev.visit n (stack.take n.arity).reverse with
    | none => pure none
    | some callback => do
      let value ← callback
      exec ev ns (value :: stack.drop n.arity)

theorem exec_cons (ev : Evaluator m ν) (n : Node) (ns : List Node) (stack : List ν) :
    ev.exec (n :: ns) stack =
      (ev.visit n (stack.take n.arity).reverse).elim (pure none)
        (· >>= fun v => ev.exec ns (v :: stack.drop n.arity)) := by
  rw [exec]
  split
  · next h => rw [h]; rfl
  · next h => rw [h]; rfl

/-- A log entry before a callback. -/
def note (n : Node) (callback : m ν) : StateT (List Node) m ν := do
  modify (· ++ [n])
  callback

/-- The evaluator that also keeps a log of the nodes whose callbacks it runs. -/
def logged (ev : Evaluator m ν) : Evaluator (StateT (List Node) m) ν where
  identifier name := note (.identifier name) (ev.identifier name)
  numeric value := note (.numeric value) (ev.numeric value)
  literal quote value := note (.literal quote value) (ev.literal quote value)
  binary left op right := note (.binary op) (ev.binary left op right)
  chain first rest := note (.chain (rest.map Prod.fst)) (ev.chain first rest)
  prefixed op value := note (.prefixed op) (ev.prefixed op value)
  postfixed value op := note (.postfixed op) (ev.postfixed value op)
  bracketed bracket inner := note (.bracketed bracket) (ev.bracketed bracket inner)
  sequence values separator :=
    note (.sequence values.length separator) (ev.sequence values separator)

/-- Whatever its shape, the node whose callback is run is the one that is logged. -/
theorem visit_logged (ev : Evaluator m ν) (n : Node) (vs : List ν) :
    ev.logged.visit n vs = (ev.visit n vs).map (note n) := by
  unfold visit
  split
  case h_7 ops v vs =>
    -- the operators are read off the pairs that the callback is given
    split_ifs with hlength
    · simp [logged, List.map_fst_zip (Nat.le_of_eq hlength.symm)]
    · rfl
  case h_9 terms separator =>
    split_ifs with hlength
    · simp [logged, hlength]
    · rfl
  all_goals rfl

/-! ## Evaluation -/

variable [LawfulMonad m] (ev : Evaluator m ν)

/-- There are as many values as terms, and what follows may rely on that. -/
theorem evalTerms_bind_congr {β : Type} {ts : List Expr} {f g : List ν → m β}
    (h : ∀ vs, vs.length = ts.length → f vs = g vs) :
    Expr.evalTerms ev ts >>= f = Expr.evalTerms ev ts >>= g := by
  induction ts generalizing f g with
  | nil =>
    simp only [Expr.evalTerms, pure_bind]
    exact h [] rfl
  | cons t ts ih =>
    simp only [Expr.evalTerms, bind_assoc, pure_bind]
    refine bind_congr fun v => ih fun vs hvs => h (v :: vs) ?_
    rw [List.length_cons, List.length_cons, hvs]

/-- Further operands are evaluated as terms, and their values go with the operators. -/
theorem evalLinks_eq (rest : List (InfixOp × Expr)) :
    Expr.evalLinks ev rest =
      (List.zip (rest.map Prod.fst) ·) <$> Expr.evalTerms ev (rest.map Prod.snd) := by
  induction rest with
  | nil => simp [Expr.evalLinks, Expr.evalTerms]
  | cons p rest ih => simp [Expr.evalLinks, Expr.evalTerms, ih]

/-- The value of a tree is that of its root on the values of its parts, whatever is done with it.
The root has a callback for that many values, so `stuck` does not matter. -/
theorem eval_bind {β : Type} (e : Expr) (k : ν → m β) (stuck : m β) :
    e.eval ev >>= k =
      Expr.evalTerms ev e.parts >>= fun vs => (ev.visit e.node vs).elim stuck (· >>= k) := by
  cases e with
  | chain first rest =>
    simp only [Expr.eval, evalLinks_eq, Expr.parts, Expr.evalTerms, bind_assoc, pure_bind,
      bind_map_left]
    refine bind_congr fun v => evalTerms_bind_congr ev fun vs hvs => ?_
    simp [Expr.node, visit, hvs]
  | sequence terms separator =>
    simp only [Expr.eval, Expr.parts, bind_assoc]
    refine evalTerms_bind_congr ev fun vs hvs => ?_
    simp [Expr.node, visit, hvs]
  | _ => simp [Expr.eval, Expr.parts, Expr.evalTerms, Expr.node, visit]

/-- The nodes of several trees leave their values on the stack, the last one on top, if those of
each single tree do. -/
theorem exec_flatMap {ts : List Expr}
    (h : ∀ t ∈ ts, ∀ ns stack,
      ev.exec (t.postorder ++ ns) stack = t.eval ev >>= fun v => ev.exec ns (v :: stack))
    (ns : List Node) (stack : List ν) :
    ev.exec (ts.flatMap Expr.postorder ++ ns) stack =
      Expr.evalTerms ev ts >>= fun vs => ev.exec ns (vs.reverse ++ stack) := by
  induction ts generalizing stack with
  | nil => simp [Expr.evalTerms]
  | cons t ts ih =>
    rw [List.forall_mem_cons] at h
    rw [List.flatMap_cons, List.append_assoc, h.1]
    simp [ih h.2, Expr.evalTerms]

/-- Working off the nodes of a tree puts its value on the stack, and the nodes after them go on from
there. -/
theorem exec_postorder (e : Expr) (ns : List Node) (stack : List ν) :
    ev.exec (e.postorder ++ ns) stack = e.eval ev >>= fun v => ev.exec ns (v :: stack) := by
  induction e using Expr.parts_induction generalizing ns stack with
  | tree e ih =>
    rw [Expr.postorder_eq, List.append_assoc, exec_flatMap ev ih, eval_bind ev e _ (pure none)]
    refine evalTerms_bind_congr ev fun vs hvs => ?_
    -- the root takes exactly the values of the parts
    have harity : e.node.arity = vs.reverse.length := by
      rw [Expr.arity_node, List.length_reverse, hvs]
    rw [List.singleton_append, exec_cons, harity, List.take_left, List.drop_left,
      List.reverse_reverse]

/-- The logs of several trees are put one after the other, if each single tree logs its nodes. -/
theorem evalTerms_logged {ts : List Expr}
    (h : ∀ t ∈ ts, ∀ log, (t.eval ev.logged).run log =
      t.eval ev >>= fun v => pure (v, log ++ t.postorder)) (log : List Node) :
    (Expr.evalTerms ev.logged ts).run log =
      Expr.evalTerms ev ts >>= fun vs => pure (vs, log ++ ts.flatMap Expr.postorder) := by
  induction ts generalizing log with
  | nil => simp [Expr.evalTerms]
  | cons t ts ih =>
    rw [List.forall_mem_cons] at h
    simp [Expr.evalTerms, h.1, ih h.2]

/-- An evaluation runs the callbacks of the nodes in their order, each once. -/
theorem eval_logged (e : Expr) (log : List Node) :
    (e.eval ev.logged).run log = e.eval ev >>= fun v => pure (v, log ++ e.postorder) := by
  induction e using Expr.parts_induction generalizing log with
  | tree e ih =>
    have hroot := eval_bind ev.logged e pure (e.eval ev.logged)
    rw [bind_pure] at hroot
    rw [hroot, StateT.run_bind, evalTerms_logged ev ih, bind_assoc,
      eval_bind ev e _ ((e.eval ev.logged).run (log ++ e.parts.flatMap Expr.postorder))]
    refine bind_congr fun vs => ?_
    rw [pure_bind, visit_logged, Expr.postorder_eq]
    cases ev.visit e.node vs with
    | none => rfl
    | some callback => simp [note]

/-- Evaluation is a walk over the nodes of the tree in postorder. From every state, it gives the
value and the state that working off the nodes on a stack gives; the callbacks it runs are those of
the nodes in that order; and the order is that of the parts from left to right, each with all its
nodes, before the root, which takes the values of as many parts as it has. -/
theorem eval_in_postorder {σ ν : Type} (ev : Evaluator (StateM σ) ν) (e : Expr) (s : σ) :
    ∃ v s', (e.eval ev).run s = (v, s') ∧ (ev.exec e.postorder []).run s = (some [v], s') ∧
      (∀ log, ((e.eval ev.logged).run log).run s = ((v, log ++ e.postorder), s')) ∧
      e.postorder = e.parts.flatMap Expr.postorder ++ [e.node] ∧
      e.node.arity = e.parts.length := by
  refine ⟨((e.eval ev).run s).1, ((e.eval ev).run s).2, rfl, ?_, ?_, e.postorder_eq, e.arity_node⟩
  · have hexec := exec_postorder ev e [] []
    rw [List.append_nil] at hexec
    rw [hexec, StateT.run_bind]
    rfl
  · intro log
    rw [eval_logged, StateT.run_bind]
    rfl

end Evaluator

end FlatExpr
