import FlatExpr.Proofs.Limit

/-!
# Contracts of the rules

A contract relates the state before a run, the way the run ends and the state after it. If the steps
that the rules are made of keep it (`Rule.Contract`), then every rule of the grammar keeps it, from
every state, whether it answers or fails (`Grammar.obeys_call`). So a fact about all rules needs one
lemma for each kind of step, and the rules themselves are gone through only here.

The nesting counter is the first use. A level is left again on every path but one: the operation
that is refused has entered a level that nobody leaves. Hence a run leaves the counter as it was
unless it ends in a refusal, and then one higher. What is done with a reading from outside, step
after step, is a session (`Grammar.takeAll`); it loses one level for each refusal
(`Grammar.depth_takeAll`).
-/

namespace FlatExpr

/-! ## Keeping a contract -/

namespace Rule

variable {α β : Type} {limit : Nat} {holds : ReadState → Option ParseError → ReadState → Prop}

/-- How a run ended: the error, if it failed. -/
def ending : Except ParseError α → Option ParseError
  | .ok _ => none
  | .error e => some e

/-- The relation is kept by the steps that rules are made of, under a limit on nesting. -/
structure Contract (limit : Nat) (holds : ReadState → Option ParseError → ReadState → Prop) :
    Prop where
  /-- A run that goes on is judged with what comes before it. -/
  trans {s t u : ReadState} {o : Option ParseError} : holds s none t → holds t o u → holds s o u
  /-- The cursor may be moved over its lexemes. -/
  move {s : ReadState} {c : Cursor} : s.cursor.Keeps c → holds s none { s with cursor := c }
  /-- A run may fail because of a lexeme. -/
  fail {s : ReadState} {e : ParseError} : e.AtLexeme → holds s (some e) s
  /-- A level may be entered and left again. -/
  nest {s t : ReadState} {o : Option ParseError} :
    holds { s with depth := s.depth + 1 } o t → holds s o { t with depth := t.depth - 1 }
  /-- A level that is refused is not left again. -/
  refuse (s : ReadState) :
    holds s (some (.tooDeep (s.depth + 1) limit)) { s with depth := s.depth + 1 }

/-- From every state, the way the rule ends and the state it leaves are as the relation says. -/
def Obeys (holds : ReadState → Option ParseError → ReadState → Prop) (r : Rule α) : Prop :=
  ∀ s, holds s (ending (r s).1) (r s).2

namespace Contract

variable (contract : Contract limit holds)

include contract

theorem obeys_pure (a : α) : Obeys holds (Pure.pure a : Rule α) :=
  fun s => contract.move (.refl s.cursor)

theorem obeys_fail {e : ParseError} (h : e.AtLexeme) : Obeys holds (Rule.fail e : Rule α) :=
  fun _ => contract.fail h

theorem obeys_look (f : Cursor → α) : Obeys holds (Rule.look f) :=
  fun s => contract.move (.refl s.cursor)

theorem obeys_move {f : Cursor → Cursor} (h : ∀ c : Cursor, c.Keeps (f c)) :
    Obeys holds (Rule.move f) :=
  fun s => contract.move (h s.cursor)

theorem obeys_next : Obeys holds Rule.next :=
  fun s => contract.move (Cursor.keeps_skipWord s.cursor)

theorem obeys_bind {r : Rule α} {f : α → Rule β} (h : Obeys holds r)
    (hf : ∀ a, Obeys holds (f a)) : Obeys holds (r >>= f) := by
  intro s
  have hr := h s
  rw [bind_apply]
  generalize r s = x at hr
  obtain ⟨answer, t⟩ := x
  cases answer with
  | error e => exact hr
  | ok a => exact contract.trans hr (hf a t)

theorem obeys_nested {r : Rule α} (h : Obeys holds r) : Obeys holds (Rule.nested r) :=
  fun s => contract.nest (h { s with depth := s.depth + 1 })

end Contract

end Rule

/-! ## The rules of the grammar -/

namespace Grammar

open Rule Cursor

section Rules

variable {g : Grammar} {limit : Nat} {holds : ReadState → Option ParseError → ReadState → Prop}
  (contract : Contract limit holds)

include contract

theorem obeys_literal : Obeys holds g.literal := by
  refine contract.obeys_bind contract.obeys_next fun opened => ?_
  cases opened.toQuote g.dialect with
  | none => exact contract.obeys_fail (atLexeme_unexpected g _ _)
  | some quote =>
    have hgather (closes : Lexeme → Bool) : Obeys holds (textUpTo closes) :=
      fun s => contract.move (follows_textUpTo closes s).keeps
    refine contract.obeys_bind (hgather _) fun content => ?_
    cases content with
    | none => exact contract.obeys_fail (.inr rfl)
    | some value =>
      exact contract.obeys_bind (contract.obeys_move keeps_skipSpace)
        fun _ => contract.obeys_pure _

variable {operation operand : Rule Expr}

theorem obeys_inBracketsWith (h : Obeys holds operation) :
    Obeys holds (g.inBracketsWith operation) := by
  refine contract.obeys_bind contract.obeys_next fun opened => ?_
  cases g.opens? opened with
  | none => exact contract.obeys_fail (atLexeme_unexpected g _ _)
  | some bracket =>
    refine contract.obeys_bind h fun inner => contract.obeys_bind contract.obeys_next
      fun closed => ?_
    cases g.closes? closed with
    | none => exact contract.obeys_fail (atLexeme_unexpected g _ _)
    | some other =>
      refine contract.obeys_bind (contract.obeys_move keeps_skipSpace) fun _ => ?_
      split_ifs
      · exact contract.obeys_pure _
      · exact contract.obeys_fail (.inr rfl)

theorem obeys_termWith (h : Obeys holds operation) : Obeys holds (g.termWith operation) := by
  refine contract.obeys_bind (contract.obeys_move keeps_skipSpace) fun _ =>
    contract.obeys_bind (contract.obeys_look _) fun l => ?_
  have hword : Obeys holds (move fun c => c.skip.skipSpace) :=
    contract.obeys_move fun c => (keeps_skip c).trans (keeps_skipSpace _)
  cases hcategory : l.classify g.dialect with
  | error e => exact contract.obeys_fail (atLexeme_of_classify hcategory)
  | ok category =>
  cases category with
  | identifier name => exact contract.obeys_bind hword fun _ => contract.obeys_pure _
  | numeric value => exact contract.obeys_bind hword fun _ => contract.obeys_pure _
  | prefixOp op => exact h
  | quote q => exact obeys_literal contract
  | bracket b opens =>
    cases opens with
    | true => exact obeys_inBracketsWith contract h
    | false => exact contract.obeys_fail (.inr rfl)
  | _ => exact contract.obeys_fail (atLexeme_unexpected g _ _)

theorem obeys_operandWith (h : Obeys holds operation) :
    Obeys holds (g.operandWith operation) := by
  refine contract.obeys_bind (contract.obeys_move keeps_skipSpace) fun _ =>
    contract.obeys_bind (contract.obeys_look _) fun before =>
    contract.obeys_bind (contract.obeys_move fun c => ?_) fun _ =>
    contract.obeys_bind (obeys_termWith contract h) fun term =>
    contract.obeys_bind (contract.obeys_move keeps_skipSpace) fun _ =>
    contract.obeys_bind (contract.obeys_look _) fun after =>
    contract.obeys_bind (contract.obeys_move fun c => ?_) fun _ => contract.obeys_pure _
  · split_ifs
    · exact keeps_skipWord c
    · exact .refl c
  · split_ifs
    · exact (keeps_skipWord c).trans (keeps_skipSpace _)
    · exact keeps_skipSpace c

/-- By induction on the rounds. -/
theorem obeys_linksWith (h : Obeys holds operand) (lexemes : Nat) (op : InfixOp) :
    Obeys holds (g.linksWith operand lexemes op) := by
  induction lexemes generalizing op with
  | zero => exact contract.obeys_pure _
  | succ lexemes ih =>
    have hlink : Obeys holds (g.linkWith operand) :=
      contract.obeys_bind (contract.obeys_move keeps_skipWord) fun _ =>
        contract.obeys_bind h fun _ =>
        contract.obeys_bind (contract.obeys_move keeps_skipSpace) fun _ =>
        contract.obeys_bind (contract.obeys_look _) fun _ => contract.obeys_pure _
    refine contract.obeys_bind hlink fun link => ?_
    obtain ⟨right, following⟩ := link
    cases following with
    | none => exact contract.obeys_pure _
    | some op' => exact contract.obeys_bind (ih op') fun _ => contract.obeys_pure _

theorem obeys_itemWith (h : Obeys holds operand) (separator : Separator) :
    Obeys holds (g.itemWith operand separator) := by
  have hlexeme : Obeys holds (separatorLexeme separator) := by
    unfold separatorLexeme
    split_ifs
    · exact contract.obeys_bind (contract.obeys_move keeps_backSpace)
        fun _ => contract.obeys_look _
    · exact contract.obeys_look _
  refine contract.obeys_bind h fun term => contract.obeys_bind hlexeme fun l => ?_
  cases l.toSeparator g.dialect with
  | none => exact contract.obeys_pure _
  | some found =>
    by_cases heq : found = separator
    · simp only [heq, if_true]
      refine contract.obeys_bind (contract.obeys_move fun c => ?_) fun _ =>
        contract.obeys_bind (contract.obeys_look _) fun _ => contract.obeys_pure _
      split_ifs
      · exact keeps_skipSpace c
      · exact keeps_skipWord c
    · simp only [heq, if_false]
      exact contract.obeys_fail (.inr rfl)

/-- By induction on the rounds. -/
theorem obeys_itemsWith (h : Obeys holds operand) (separator : Separator) (rounds : Nat) :
    Obeys holds (g.itemsWith operand separator rounds) := by
  induction rounds with
  | zero => exact contract.obeys_pure _
  | succ rounds ih =>
    refine contract.obeys_bind (obeys_itemWith contract h separator) fun item => ?_
    obtain ⟨term, more⟩ := item
    dsimp only
    split_ifs
    · exact contract.obeys_bind ih fun _ => contract.obeys_pure _
    · exact contract.obeys_pure _

theorem obeys_sequenceFromWith (h : Obeys holds operation) (first : Expr)
    (separator : Separator) : Obeys holds (g.sequenceFromWith operation first separator) :=
  contract.obeys_bind (contract.obeys_look _) fun _ =>
    contract.obeys_bind (obeys_itemsWith contract (obeys_operandWith contract h) separator _)
      fun _ => contract.obeys_pure _

theorem obeys_runWith (h : Obeys holds operation) : Obeys holds (g.runWith operation) := by
  have hoperand : Obeys holds (g.operandWith operation) := obeys_operandWith contract h
  refine contract.obeys_bind hoperand fun left =>
    contract.obeys_bind (contract.obeys_look _) fun l => ?_
  cases l.toInfixOp g.dialect with
  | some op =>
    exact contract.obeys_bind (contract.obeys_look _) fun _ =>
      contract.obeys_bind (obeys_linksWith contract hoperand _ op) fun _ => contract.obeys_pure _
  | none =>
    cases l.toSeparator g.dialect with
    | none => exact contract.obeys_pure _
    | some separator =>
      dsimp only
      split_ifs
      · exact contract.obeys_pure _
      · exact contract.obeys_bind (contract.obeys_move keeps_skipWord) fun _ =>
          obeys_sequenceFromWith contract h left separator

end Rules

/-! ## Calls from outside -/

/-- A rule that can be called on a reading from outside. -/
inductive Method where
  | sequence | term | literal | inBrackets | operation | operand
  | sequenceFrom (first : Expr) (separator : Separator)

/-- The rule that is called. -/
def call (g : Grammar) : Method → Rule Expr
  | .sequence => g.sequence
  | .term => g.term
  | .literal => g.literal
  | .inBrackets => g.inBrackets
  | .operation => g.operation
  | .operand => g.operand
  | .sequenceFrom first separator => g.sequenceFrom first separator

variable {g : Grammar} {holds : ReadState → Option ParseError → ReadState → Prop}

/-- By induction on the levels that are left. -/
theorem obeys_operationWithin (contract : Contract g.maxDepth holds) (levels : Nat) :
    Obeys holds (g.operationWithin levels) := by
  induction levels with
  | zero => exact contract.refuse
  | succ levels ih => exact contract.obeys_nested (obeys_runWith contract ih)

/-- Whatever rule is called, it keeps the contract. -/
theorem obeys_call (contract : Contract g.maxDepth holds) (m : Method) :
    Obeys holds (g.call m) := by
  have hoperation : Obeys holds g.operation :=
    fun s => obeys_operationWithin contract (g.maxDepth - s.depth) s
  cases m with
  | term => exact obeys_termWith contract hoperation
  | literal => exact obeys_literal contract
  | inBrackets => exact obeys_inBracketsWith contract hoperation
  | operation => exact hoperation
  | operand => exact obeys_operandWith contract hoperation
  | sequenceFrom first separator => exact obeys_sequenceFromWith contract hoperation first separator
  | sequence =>
    refine contract.obeys_bind hoperation fun first => ?_
    split_ifs
    · exact contract.obeys_pure _
    refine contract.obeys_bind (contract.obeys_look _) fun spaced =>
      contract.obeys_bind (contract.obeys_look _) fun l => ?_
    cases l.toSeparator g.dialect with
    | some separator =>
      exact contract.obeys_bind (contract.obeys_move keeps_skipWord) fun _ =>
        obeys_sequenceFromWith contract hoperation first separator
    | none =>
      dsimp only
      split_ifs
      · exact contract.obeys_pure _
      · exact obeys_sequenceFromWith contract hoperation first .space
      · exact contract.obeys_fail (atLexeme_unexpected g _ _)

/-! ## The nesting counter -/

/-- Whether a run ended in a refusal. -/
def refused : Option ParseError → Bool
  | some (.tooDeep _ _) => true
  | _ => false

theorem refused_of_atLexeme {e : ParseError} (h : e.AtLexeme) : refused (some e) = false := by
  unfold refused
  split
  · next heq => exact absurd (Option.some.inj heq) (h.ne_tooDeep _ _)
  · rfl

/-- The counter is as it was, or one higher after a refusal. -/
theorem contract_depth (limit : Nat) :
    Contract limit fun s o t => t.depth = s.depth + (refused o).toNat where
  trans {s t u o} hst htu := by
    have hst : t.depth = s.depth := hst
    rw [htu, hst]
  move _ := rfl
  fail {s e} h := by
    rw [refused_of_atLexeme h]
    rfl
  nest {s t o} h := by
    have h : t.depth = s.depth + 1 + (refused o).toNat := h
    show t.depth - 1 = s.depth + (refused o).toNat
    omega
  refuse _ := rfl

/-! ## Sessions -/

/-- What is done with a reading from outside; `μ` is what the cursor is asked for. -/
inductive Step (μ : Type) where
  /-- The cursor is asked, and may be moved. -/
  | ask (op : μ)
  /-- A rule is called. -/
  | call (m : Method)
  /-- It is asked whether nothing is left. -/
  | checkEnd

/-- What comes of a step; `α` is what the cursor answers. -/
inductive Outcome (α : Type) where
  | answer (a : α)
  | read (r : Except ParseError Expr)
  | checked (r : Except ParseError Unit)

/-- Whether a step was a call that ended in a refusal. -/
def Outcome.refused {α : Type} : Outcome α → Bool
  | .read r => Grammar.refused (ending r)
  | _ => false

section

variable {μ α : Type} (g : Grammar) (ask : Cursor → μ → α × Cursor)

/-- What comes of a step, and the state after it. -/
def take : Step μ → ReadState → Outcome α × ReadState
  | .ask op, s => (.answer (ask s.cursor op).1, { s with cursor := (ask s.cursor op).2 })
  | .call m, s => (.read (g.call m s).1, (g.call m s).2)
  | .checkEnd, s => (.checked (g.checkEnd s.cursor), s)

/-- What comes of the steps of a session, and the state after the last one. A session goes on after
a failure, from the state that the failure left. -/
def takeAll : List (Step μ) → ReadState → List (Outcome α) × ReadState
  | [], s => ([], s)
  | step :: steps, s =>
    let later := takeAll steps (g.take ask step s).2
    ((g.take ask step s).1 :: later.1, later.2)

/-- After a step the counter is as it was, or one higher after a refusal. -/
theorem depth_take (step : Step μ) (s : ReadState) :
    (g.take ask step s).2.depth = s.depth + (g.take ask step s).1.refused.toNat := by
  cases step with
  | ask op => rfl
  | call m => exact obeys_call (contract_depth g.maxDepth) m s
  | checkEnd => rfl

/-- After a session the counter is higher by the number of refusals in it. -/
theorem depth_takeAll (steps : List (Step μ)) (s : ReadState) :
    (g.takeAll ask steps s).2.depth =
      s.depth + (g.takeAll ask steps s).1.countP Outcome.refused := by
  induction steps generalizing s with
  | nil => rfl
  | cons step steps ih =>
    have hlater := ih (g.take ask step s).2
    have hfirst := depth_take g ask step s
    simp only [takeAll, List.countP_cons]
    rw [hlater, hfirst]
    cases (g.take ask step s).1.refused with
    | true => simp only [Bool.toNat_true, if_true]; omega
    | false => simp only [Bool.toNat_false, Bool.false_eq_true, if_false]; omega

end

/-- Whatever rule is called in whatever state, the counter is afterwards as it was, unless the call
ended in a refusal: then it is one higher. So a session, whatever is done to the cursor in it, loses
one level for each refusal and none for any other failure. -/
theorem depth_after_calls (g : Grammar) (s : ReadState) :
    (∀ m, (g.call m s).2.depth = s.depth + (refused (ending (g.call m s).1)).toNat) ∧
      ∀ (μ α : Type) (ask : Cursor → μ → α × Cursor) (steps : List (Step μ)),
        (g.takeAll ask steps s).2.depth =
          s.depth + (g.takeAll ask steps s).1.countP Outcome.refused := by
  refine ⟨fun m => obeys_call (contract_depth g.maxDepth) m s, ?_⟩
  intro μ α ask steps
  exact depth_takeAll g ask steps s

/-- Within one level the bracket in `(a` is refused, and the counter stays at one. The operation `a`
after it is refused as well, although it is read where the counter is as before the first call. -/
theorem depth_call_leaks :
    (startOf "(a".toList).depth = 0 ∧
    (({ maxDepth := 1 } : Grammar).call .operation (startOf "(a".toList)).2.depth = 1 ∧
    (({ maxDepth := 1 } : Grammar).call .operation
      (({ maxDepth := 1 } : Grammar).call .operation (startOf "(a".toList)).2).1 =
        .error (.tooDeep 2 1) ∧
    (({ maxDepth := 1 } : Grammar).call .operation
      { (({ maxDepth := 1 } : Grammar).call .operation (startOf "(a".toList)).2 with
        depth := 0 }).1 = .ok (.identifier "a".toList) := by
  refine ⟨rfl, ?_, ?_, ?_⟩
  all_goals decide +kernel

end Grammar

end FlatExpr
