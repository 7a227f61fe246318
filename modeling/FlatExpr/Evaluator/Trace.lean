import FlatExpr.Evaluator.Basic

/-!
# Traces of an evaluation

Records which nodes are evaluated, in order. The value of a node is the index of its event, so the
events show the order of evaluation and how the values are passed on.
-/

namespace FlatExpr

/-- The evaluation of one node; the parts are given by the indices of their events. -/
inductive Event where
  /-- A name. -/
  | identifier (name : Text)
  /-- A numeric. -/
  | numeric (value : Text)
  /-- A literal. -/
  | literal (quote : Quote) (value : Text)
  /-- An infix operator. -/
  | binary (left : Nat) (op : InfixOp) (right : Nat)
  /-- A run of operands. -/
  | chain (first : Nat) (rest : List (InfixOp × Nat))
  /-- A prefix operator. -/
  | prefixed (op : PrefixOp) (value : Nat)
  /-- A postfix operator. -/
  | postfixed (value : Nat) (op : PostfixOp)
  /-- A pair of brackets. -/
  | bracketed (bracket : Bracket) (inner : Nat)
  /-- A sequence. -/
  | sequence (values : List Nat) (separator : Separator)
  deriving DecidableEq

namespace Evaluator

/-- Appends an event; its value is its index. -/
def record (event : Event) : StateM (Array Event) Nat := fun events =>
  (events.size, events.push event)

/-- The evaluator that records every node. -/
def trace : Evaluator (StateM (Array Event)) Nat where
  identifier name := record (.identifier name)
  numeric value := record (.numeric value)
  literal quote value := record (.literal quote value)
  binary left op right := record (.binary left op right)
  chain first rest := record (.chain first rest)
  prefixed op value := record (.prefixed op value)
  postfixed value op := record (.postfixed value op)
  bracketed bracket inner := record (.bracketed bracket inner)
  sequence values separator := record (.sequence values separator)

end Evaluator

/-- The index of the event of the root, and all events in order. -/
def Expr.traced (e : Expr) : Nat × List Event :=
  let (root, events) := (e.eval Evaluator.trace).run #[]
  (root, events.toList)

end FlatExpr
