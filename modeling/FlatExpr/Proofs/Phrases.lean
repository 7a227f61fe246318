import FlatExpr.Proofs.Symbols

/-!
# Phrases

The grammar on lists of words, as relations. `r ws e rest` says that the words `ws` start with a
phrase that is read as `e`, and that `rest` is what follows it. There is no white space here and no
cursor; the words ahead decide what comes next, by at most two of them.

As in the rules of the grammar, the phrases below an operation take the operations that may be
nested in them as a parameter, and `Operation` counts the levels of nesting that are left. So none
of the relations is mutual, and each kind of phrase has its own induction.
-/

namespace FlatExpr

/-- What lists of words are read as: the words, the value, and the words after the phrase. -/
abbrev Reading (α : Type) : Type := List Text → α → List Text → Prop

namespace Phrase

variable (d : Dialect)

/-! ## Looking ahead -/

/-- Whether the first word can start an operand. -/
def startsOperand (ws : List Text) : Bool :=
  ({ dialect := d } : Grammar).startsOperand (Lexeme.ofText (ws.headD []))

/-- The postfix operator that comes first. A word that is also an infix operator is none if an
operand can start after it. -/
def postfixOp? (ws : List Text) : Option PostfixOp :=
  if (d.infixes.leading? ws).isSome && startsOperand d ws.tail then none
  else d.postfixes.leading? ws

/-- The postfix operator is none, or what the postfix operators say of the first word. -/
theorem postfixOp?_cases (ws : List Text) :
    d.postfixes.leading? ws = postfixOp? d ws ∨ postfixOp? d ws = none := by
  unfold postfixOp?
  split_ifs
  · exact .inr rfl
  · exact .inl rfl

/-- The words after an operator, if there is one. -/
def past {α : Type} (op : Option α) (ws : List Text) : List Text :=
  if op.isSome then ws.tail else ws

/-! ## Terms and operands -/

/-- A literal: a quotation mark, a text without that mark, and the mark again. -/
inductive Literal : Reading Expr where
  | mk {q : Quote} {value : Text} {ws : List Text} (allowed : d.quotes.allows q = true)
      (clear : ∀ c ∈ q.symbol, c ∉ value) :
      Literal (q.symbol :: value :: q.symbol :: ws) (.literal q value) ws

/-- An operation between the two brackets of one kind. -/
inductive Bracketed (operation : Reading Expr) : Reading Expr where
  | mk {b : Bracket} {inner : Expr} {ws ws' : List Text} (allowed : d.brackets.allows b = true)
      (inside : operation ws inner (b.closing :: ws')) :
      Bracketed operation (b.opening :: ws) (.bracketed b inner) ws'

/-- A term. Where an operand starts with two prefix operators, the second one starts an operation
that is the term of the first. -/
inductive Term (operation : Reading Expr) : Reading Expr where
  | identifier {name : Text} {ws : List Text} (shape : Lexeme.isIdentifierText name = true)
      (allowed : d.identifiers.allows name = true) :
      Term operation (name :: ws) (.identifier name) ws
  | numeric {value : Text} {ws : List Text} (shape : Lexeme.isNumericText value = true)
      (allowed : d.numerics.allows value = true) :
      Term operation (value :: ws) (.numeric value) ws
  | literal {ws ws' : List Text} {e : Expr} (h : Literal d ws e ws') : Term operation ws e ws'
  | bracketed {ws ws' : List Text} {e : Expr}
      (opens : ws.head? = some Bracket.angle.opening → d.infixes.allows .lt = false)
      (h : Bracketed d operation ws e ws') : Term operation ws e ws'
  | prefixed {ws ws' : List Text} {e : Expr} {op : PrefixOp}
      (lead : d.prefixes.leading? ws = some op) (h : operation ws e ws') : Term operation ws e ws'

/-- A term with the prefix operator before it and the postfix operator after it, if there are
any. -/
inductive Operand (operation : Reading Expr) : Reading Expr where
  | mk {ws ws' : List Text} {term : Expr}
      (h : Term d operation (past (d.prefixes.leading? ws) ws) term ws') :
      Operand operation ws (Grammar.attach (d.prefixes.leading? ws) term (postfixOp? d ws'))
        (past (postfixOp? d ws') ws')

/-- An operand, with the operators before and after its term known. -/
theorem Operand.of_eq {operation : Reading Expr} {ws ws' : List Text} {term : Expr}
    {before : Option PrefixOp} {after : Option PostfixOp}
    (hbefore : d.prefixes.leading? ws = before) (hafter : postfixOp? d ws' = after)
    (h : Term d operation (past before ws) term ws') :
    Operand d operation ws (Grammar.attach before term after) (past after ws') := by
  subst hbefore hafter
  exact .mk h

/-! ## Runs of operands -/

/-- The operands after the infix operator `op`, each with the operator before it, as long as
another operator follows. -/
inductive Links (operand : Reading Expr) : InfixOp → Reading (List (InfixOp × Expr)) where
  | last {op : InfixOp} {ws ws' : List Text} {e : Expr} (h : operand ws e ws')
      (stop : d.infixes.leading? ws' = none) : Links operand op ws [(op, e)] ws'
  | more {op op' : InfixOp} {ws ws' ws'' : List Text} {e : Expr} {rest : List (InfixOp × Expr)}
      (h : operand ws e ws') (lead : d.infixes.leading? ws' = some op')
      (links : Links operand op' ws'.tail rest ws'') :
      Links operand op ws ((op, e) :: rest) ws''

/-- The terms after a separator, as long as the same separator follows. -/
inductive Items (operand : Reading Expr) (separator : Separator) : Reading (List Expr) where
  | last {ws ws' : List Text} {e : Expr} (h : operand ws e ws')
      (stop : d.separators.leading? ws' = none) : Items operand separator ws [e] ws'
  | more {ws ws' ws'' : List Text} {e : Expr} {es : List Expr} (h : operand ws e ws')
      (lead : d.separators.leading? ws' = some separator)
      (items : Items operand separator ws'.tail es ws'') :
      Items operand separator ws (e :: es) ws''

/-- An operand alone, operands joined by infix operators, or a sequence with a separator other than
white space. -/
inductive Run (operand : Reading Expr) : Reading Expr where
  | single {ws ws' : List Text} {e : Expr} (h : operand ws e ws')
      (stop : d.infixes.leading? ws' = none) (alone : d.separators.leading? ws' = none) :
      Run operand ws e ws'
  | chain {ws ws' ws'' : List Text} {e : Expr} {op : InfixOp} {rest : List (InfixOp × Expr)}
      (h : operand ws e ws') (lead : d.infixes.leading? ws' = some op)
      (links : Links d operand op ws'.tail rest ws'') : Run operand ws (.ofRun e rest) ws''
  | sequence {ws ws' ws'' : List Text} {e : Expr} {separator : Separator} {es : List Expr}
      (h : operand ws e ws') (stop : d.infixes.leading? ws' = none)
      (lead : d.separators.leading? ws' = some separator)
      (symbolic : separator.isWhitespace = false)
      (items : Items d operand separator ws'.tail es ws'') :
      Run operand ws (.sequence (e :: es) separator) ws''

/-- An operation, with a number of levels left for it and those nested in it. -/
def Operation : (levels : Nat) → Reading Expr
  | 0 => fun _ _ _ => False
  | levels + 1 => Run d (Operand d (Operation levels))

/-! ## Whole sources -/

/-- Phrases of one kind, one after the other, up to the end of the words. -/
inductive Many (phrase : Reading Expr) : List Text → List Expr → Prop where
  | nil : Many phrase [] []
  | cons {ws ws' : List Text} {e : Expr} {es : List Expr} (nonempty : ws ≠ [])
      (h : phrase ws e ws') (rest : Many phrase ws' es) : Many phrase ws (e :: es)

/-- An operation, and the further terms if a separator other than white space follows it. A single
operation has to end with the words. -/
inductive Sequence (levels : Nat) : Reading Expr where
  | whole {ws ws' : List Text} {e : Expr} (h : Operation d levels ws e ws')
      (already : e.isSequence = true) : Sequence levels ws e ws'
  | single {ws : List Text} {e : Expr} (h : Operation d levels ws e []) : Sequence levels ws e []
  | separated {ws ws' ws'' : List Text} {e : Expr} {separator : Separator} {es : List Expr}
      (h : Operation d levels ws e ws') (single : e.isSequence = false)
      (lead : d.separators.leading? ws' = some separator)
      (symbolic : separator.isWhitespace = false)
      (items : Items d (Operand d (Operation d levels)) separator ws'.tail es ws'') :
      Sequence levels ws (.sequence (e :: es) separator) ws''

/-! ## Sequences by white space -/

/-- A phrase at the start of some tokens: the tokens it takes, with the gap after it if there is
one, and the tokens from the next word on. -/
structure Leads (phrase : Reading Expr) (ts : List (Option Text)) (e : Expr)
    (taken rest : List (Option Text)) : Prop where
  /-- The tokens are those taken and the rest. -/
  split : ts = taken ++ rest
  /-- The gaps do not matter to the phrase. -/
  phrase : phrase ts.reduceOption e rest.reduceOption
  /-- The rest does not start with a gap. -/
  settled : rest.head? ≠ some none

/-- The terms of a sequence by white space after the first: each but the last is followed by a gap
and another word. -/
inductive SpacedItems (operand : Reading Expr) :
    List (Option Text) → List Expr → List (Option Text) → Prop where
  | last {ts taken ts' : List (Option Text)} {e : Expr} (h : Leads operand ts e taken ts')
      (stop : ts' = [] ∨
        (taken.getLast? ≠ some none ∧ d.separators.leading? ts'.reduceOption = none)) :
      SpacedItems operand ts [e] ts'
  | more {ts taken ts' ts'' : List (Option Text)} {e : Expr} {es : List Expr}
      (h : Leads operand ts e taken ts') (gap : taken.getLast? = some none) (continues : ts' ≠ [])
      (items : SpacedItems operand ts' es ts'') : SpacedItems operand ts (e :: es) ts''

/-- An operation and further terms with white space between them. -/
inductive SpacedSequence (levels : Nat) :
    List (Option Text) → Expr → List (Option Text) → Prop where
  | mk {ts taken ts' ts'' : List (Option Text)} {e : Expr} {es : List Expr}
      (h : Leads (Operation d levels) ts e taken ts') (single : e.isSequence = false)
      (allowed : d.separators.allows .space = true) (gap : taken.getLast? = some none)
      (continues : ts' ≠ []) (stop : d.separators.leading? ts'.reduceOption = none)
      (items : SpacedItems d (Operand d (Operation d levels)) ts' es ts'') :
      SpacedSequence levels ts (.sequence (e :: es) .space) ts''

end Phrase

end FlatExpr
