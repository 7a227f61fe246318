import FlatExpr.Proofs.Contracts
import FlatExpr.Proofs.Indices

/-!
# Rules with an index

The rules of the grammar, once more, over a cursor that is kept as an index. They ask the cursor the
same questions and move it by the same steps, one lexeme at a time, with every sum and difference of
an index checked (`IndexRule`); the look beyond an infix operator saves the index, moves on and goes
back to it. A rule with an index has no result if an index leaves the list.

It always has one, and the same as the rule itself (`IndexRule.Refines`, `Grammar.refines_call`). So
no rule takes an index out of the list, wherever it starts and however it ends. Refinement is shown
for the steps that rules are made of, and a rule is gone through only to put these together.
-/

namespace FlatExpr

/-- Where a reading stands, with an index. -/
structure IndexState where
  /-- The place in the lexemes. -/
  cursor : IndexCursor
  /-- How many operations the reading is inside of. -/
  depth : Nat

/-- The state with the index of its cursor. -/
def ReadState.indexed (s : ReadState) : IndexState := ⟨s.cursor.indexed, s.depth⟩

/-- A step of a reading with an index; it has no result when an index leaves the list. -/
def IndexRule (α : Type) : Type := IndexState → Option (Except ParseError α × IndexState)

namespace IndexRule

variable {α β : Type}

instance : Monad IndexRule where
  pure a := fun s => some (.ok a, s)
  bind r f := fun s =>
    match r s with
    | none => none
    | some (.ok a, s') => f a s'
    | some (.error e, s') => some (.error e, s')

/-- Fails and leaves the state as it is. -/
def fail (e : ParseError) : IndexRule α := fun s => some (.error e, s)

/-- What is seen from the cursor. -/
def look (f : IndexCursor → Option α) : IndexRule α := fun s =>
  (f s.cursor).map fun a => (.ok a, s)

/-- Moves the cursor. -/
def move (f : IndexCursor → Option IndexCursor) : IndexRule Unit := fun s =>
  (f s.cursor).map fun i => (.ok (), { s with cursor := i })

/-- The next lexeme, which is passed. -/
def read : IndexRule Lexeme := do
  let l ← look fun i => some i.peek
  move IndexCursor.skip?
  return l

/-- The next lexeme past one lexeme of white space, which is passed. -/
def next : IndexRule Lexeme := do
  move IndexCursor.skipSpace?
  read

/-- The number of lexemes ahead. -/
def left : IndexRule Nat := look fun i => some (i.lexemes.length - i.next)

/-- Runs a rule one level deeper. -/
def nested (r : IndexRule α) : IndexRule α := fun s =>
  (r { s with depth := s.depth + 1 }).map fun x => (x.1, { x.2 with depth := x.2.depth - 1 })

/-- A rule that gave a value goes on with it. -/
theorem bind_of_some {r : IndexRule α} {f : α → IndexRule β} {s t : IndexState} {a : α}
    (h : r s = some (.ok a, t)) : (r >>= f) s = f a t := by
  show (match r s with
    | none => none
    | some (.ok a, s') => f a s'
    | some (.error e, s') => some (.error e, s')) = _
  rw [h]

end IndexRule

/-! ## The rules with an index

Each is the rule of the same name, step by step. -/

namespace Grammar.Indexed

open IndexRule

variable (g : Grammar)

/-- Gathers lexemes up to one that closes the literal. -/
def gather (closes : Lexeme → Bool) : (rounds : Nat) → TextRun → IndexRule (Option Text)
  | 0, _ => return none
  | rounds + 1, run => do
    let l ← read
    if l.isTerminal then return none
    else if closes l then return some run.text
    else gather closes rounds (run.push l)

/-- The text up to the lexeme that closes a literal, which is passed. -/
def textUpTo (closes : Lexeme → Bool) : IndexRule (Option Text) := do
  let lexemes ← left
  gather closes (lexemes + 1) .empty

def literal : IndexRule Expr := do
  let opened ← next
  match opened.toQuote g.dialect with
  | none => fail (g.unexpected .quote opened)
  | some quote => do
    let content ← textUpTo fun l => l.toQuote g.dialect == some quote
    match content with
    | none => fail (.unterminatedLiteral quote opened.start)
    | some value => do
      move IndexCursor.skipSpace?
      return .literal quote value

def inBracketsWith (operation : IndexRule Expr) : IndexRule Expr := do
  let opened ← next
  match g.opens? opened with
  | none => fail (g.unexpected .openBracket opened)
  | some bracket => do
    let inner ← operation
    let closed ← next
    match g.closes? closed with
    | none => fail (g.unexpected .closeBracket closed)
    | some other => do
      move IndexCursor.skipSpace?
      if bracket = other then return .bracketed bracket inner
      else fail (.bracketMismatch bracket other closed.start)

def termWith (operation : IndexRule Expr) : IndexRule Expr := do
  move IndexCursor.skipSpace?
  let l ← look fun i => some i.peek
  match l.classify g.dialect with
  | .error e => fail e
  | .ok (.identifier name) => do
    move fun i => i.skip? >>= IndexCursor.skipSpace?
    return .identifier name
  | .ok (.numeric value) => do
    move fun i => i.skip? >>= IndexCursor.skipSpace?
    return .numeric value
  | .ok (.prefixOp _) => operation
  | .ok (.quote _) => literal g
  | .ok (.bracket bracket opens) =>
    if opens then inBracketsWith g operation else fail (.unexpectedClosing bracket l.start)
  | .ok _ => fail (g.unexpected .term l)

/-- Whether a lexeme that was seen is an infix operator, because an operand can start after it. The
cursor looks beyond it and goes back. -/
def continuesAsInfix (l : Lexeme) : IndexRule Bool :=
  if (l.toInfixOp g.dialect).isSome then do
    let saved ← look fun i => some i.next
    move IndexCursor.skipWord?
    let after ← look IndexCursor.peekWord?
    move fun i => some (i.seek saved)
    return g.startsOperand after
  else return false

/-- The postfix operator that the next word is. -/
def postfixOp : IndexRule (Option PostfixOp) := do
  let l ← look IndexCursor.peekWord?
  match l.toPostfixOp g.dialect with
  | none => return none
  | some op => do
    let infixed ← continuesAsInfix g l
    return if infixed then none else some op

def operandWith (operation : IndexRule Expr) : IndexRule Expr := do
  move IndexCursor.skipSpace?
  let before ← look fun i => some (i.peek.toPrefixOp g.dialect)
  move fun i => if before.isSome then i.skipWord? else some i
  let term ← termWith g operation
  move IndexCursor.skipSpace?
  let after ← postfixOp g
  move fun i => if after.isSome then i.skipWord? >>= IndexCursor.skipSpace? else i.skipSpace?
  return attach before term after

def linkWith (operand : IndexRule Expr) : IndexRule (Expr × Option InfixOp) := do
  move IndexCursor.skipWord?
  let right ← operand
  move IndexCursor.skipSpace?
  let following ← look fun i => some (i.peek.toInfixOp g.dialect)
  return (right, following)

def linksWith (operand : IndexRule Expr) : (lexemes : Nat) → (op : InfixOp) →
    IndexRule (List (InfixOp × Expr))
  | 0, _ => return []
  | lexemes + 1, op => do
    let (right, following) ← linkWith g operand
    match following with
    | none => return [(op, right)]
    | some op' => do
      let rest ← linksWith operand lexemes op'
      return (op, right) :: rest

def separatorLexeme (separator : Separator) : IndexRule Lexeme :=
  if separator.isWhitespace then do
    move IndexCursor.backSpace?
    look fun i => some i.peek
  else look IndexCursor.peekWord?

def itemWith (operand : IndexRule Expr) (separator : Separator) : IndexRule (Expr × Bool) := do
  let term ← operand
  let l ← separatorLexeme separator
  match l.toSeparator g.dialect with
  | none => return (term, false)
  | some found =>
    if found = separator then do
      move fun i => if separator.isWhitespace then i.skipSpace? else i.skipWord?
      let ended ← look fun i =>
        if separator.isWhitespace then i.peekWord?.map Lexeme.isTerminal else some false
      return (term, !ended)
    else fail (.separatorMismatch separator found l.start)

def itemsWith (operand : IndexRule Expr) (separator : Separator) :
    (rounds : Nat) → IndexRule (List Expr)
  | 0 => return []
  | rounds + 1 => do
    let (term, more) ← itemWith g operand separator
    if more then do
      let terms ← itemsWith operand separator rounds
      return term :: terms
    else return [term]

def sequenceFromWith (operation : IndexRule Expr) (first : Expr) (separator : Separator) :
    IndexRule Expr := do
  let lexemes ← left
  let terms ← itemsWith g (operandWith g operation) separator (lexemes + 1)
  return .sequence (first :: terms) separator

def runWith (operation : IndexRule Expr) : IndexRule Expr := do
  let first ← operandWith g operation
  let l ← look IndexCursor.peekWord?
  match l.toInfixOp g.dialect with
  | some op => do
    let lexemes ← left
    let rest ← linksWith g (operandWith g operation) lexemes op
    return .ofRun first rest
  | none =>
    match l.toSeparator g.dialect with
    | none => return first
    | some separator =>
      if separator.isWhitespace then return first
      else do
        move IndexCursor.skipWord?
        sequenceFromWith g operation first separator

def refuse : IndexRule Expr := fun s =>
  some (.error (.tooDeep (s.depth + 1) g.maxDepth), { s with depth := s.depth + 1 })

def operationWithin : (levels : Nat) → IndexRule Expr
  | 0 => refuse g
  | levels + 1 => nested (runWith g (operationWithin levels))

def operation : IndexRule Expr := fun s => operationWithin g (g.maxDepth - s.depth) s

def sequence : IndexRule Expr := do
  let first ← operation g
  if first.isSequence then return first
  else do
    let spaced ← look fun i => some i.last.isWhitespace
    let l ← look IndexCursor.peekWord?
    match l.toSeparator g.dialect with
    | some separator => do
      move IndexCursor.skipWord?
      sequenceFromWith g (operation g) first separator
    | none =>
      if l.isTerminal then return first
      else if spaced && g.dialect.separators.allows .space then
        sequenceFromWith g (operation g) first .space
      else fail (g.unexpected .separator l)

/-- The rule that is called. -/
def call : Method → IndexRule Expr
  | .sequence => sequence g
  | .term => termWith g (operation g)
  | .literal => literal g
  | .inBrackets => inBracketsWith g (operation g)
  | .operation => operation g
  | .operand => operandWith g (operation g)
  | .sequenceFrom first separator => sequenceFromWith g (operation g) first separator

/-- Whether nothing but white space is left. -/
def checkEnd : IndexRule Unit := do
  let l ← look IndexCursor.peekWord?
  if l.isTerminal then return ()
  else
    match l.disallowedCategory g.dialect with
    | some category => fail (.disallowed category l.text l.start)
    | none => fail (.unresolved l.remainder l.start)

end Grammar.Indexed

/-! ## Refinement -/

namespace IndexRule

variable {α β : Type}

/-- From every cursor that sees nothing beyond its ends, the rule with an index does what the rule
does, and no index leaves the list. -/
def Refines (r' : IndexRule α) (r : Rule α) : Prop :=
  ∀ s : ReadState, s.cursor.terminal.text = [] →
    r' s.indexed = some ((r s).1, (r s).2.indexed) ∧ (r s).2.cursor.terminal.text = []

namespace Refines

theorem pure (a : α) : Refines (Pure.pure a) (Pure.pure a) := fun _ hs => ⟨rfl, hs⟩

theorem fail (e : ParseError) : Refines (IndexRule.fail e : IndexRule α) (Rule.fail e) :=
  fun _ hs => ⟨rfl, hs⟩

theorem look {f' : IndexCursor → Option α} {f : Cursor → α}
    (h : ∀ c : Cursor, c.terminal.text = [] → f' c.indexed = some (f c)) :
    Refines (IndexRule.look f') (Rule.look f) := by
  intro s hs
  refine ⟨?_, hs⟩
  show (f' s.cursor.indexed).map _ = _
  rw [h _ hs]
  rfl

theorem move {f' : IndexCursor → Option IndexCursor} {f : Cursor → Cursor}
    (h : ∀ c : Cursor, c.terminal.text = [] → f' c.indexed = some (f c).indexed)
    (hf : ∀ c : Cursor, c.Keeps (f c)) : Refines (IndexRule.move f') (Rule.move f) := by
  intro s hs
  refine ⟨?_, ?_⟩
  · show (f' s.cursor.indexed).map _ = _
    rw [h _ hs]
    rfl
  · show (f s.cursor).terminal.text = []
    rw [(hf s.cursor).terminal, hs]

theorem bind {r' : IndexRule α} {r : Rule α} {f' : α → IndexRule β} {f : α → Rule β}
    (h : Refines r' r) (hf : ∀ a, Refines (f' a) (f a)) : Refines (r' >>= f') (r >>= f) := by
  intro s hs
  obtain ⟨hrun, hterminal⟩ := h s hs
  rw [Rule.bind_apply]
  show (match r' s.indexed with
    | none => none
    | some (.ok a, s') => f' a s'
    | some (.error e, s') => some (.error e, s')) = _ ∧ _
  rw [hrun]
  rcases hr : r s with ⟨_ | a, t⟩
  · rw [hr] at hterminal
    exact ⟨rfl, hterminal⟩
  · rw [hr] at hterminal
    exact hf a t hterminal

theorem nested {r' : IndexRule α} {r : Rule α} (h : Refines r' r) :
    Refines (IndexRule.nested r') (Rule.nested r) := by
  intro s hs
  obtain ⟨hrun, hterminal⟩ := h { s with depth := s.depth + 1 } hs
  refine ⟨?_, hterminal⟩
  show (r' (ReadState.indexed { s with depth := s.depth + 1 })).map _ = _
  rw [hrun]
  rfl

/-! ### Steps of the cursor -/

theorem peek (f : Lexeme → α) :
    Refines (IndexRule.look fun i => some (f i.peek)) (Rule.look fun c => f c.peek) :=
  .look fun c _ => congrArg (some ∘ f) (Cursor.peek_indexed c)

theorem peekWord : Refines (IndexRule.look IndexCursor.peekWord?) (Rule.look Cursor.peekWord) :=
  .look fun _ hc => Cursor.peekWord?_indexed hc

theorem skipSpace :
    Refines (IndexRule.move IndexCursor.skipSpace?) (Rule.move Cursor.skipSpace) :=
  .move (fun _ hc => Cursor.skipSpace?_indexed hc) Cursor.keeps_skipSpace

theorem skipWord : Refines (IndexRule.move IndexCursor.skipWord?) (Rule.move Cursor.skipWord) :=
  .move (fun _ hc => Cursor.skipWord?_indexed hc) Cursor.keeps_skipWord

theorem read : Refines IndexRule.read (do
    let l ← Rule.look Cursor.peek
    Rule.move Cursor.skip
    return l) :=
  .bind (.peek id) fun l => .bind (.move (fun c _ => Cursor.skip?_indexed c) Cursor.keeps_skip)
    fun _ => .pure l

theorem next : Refines IndexRule.next Rule.next :=
  show Refines IndexRule.next (do
    Rule.move Cursor.skipSpace
    let l ← Rule.look Cursor.peek
    Rule.move Cursor.skip
    return l) from .bind .skipSpace fun _ => .read

theorem left : Refines IndexRule.left (Rule.look fun c => c.ahead.length) := by
  refine .look fun c _ => congrArg some ?_
  show c.lexemes.length - c.position = c.ahead.length
  rw [Cursor.length_lexemes, Nat.add_sub_cancel_left]

/-- A lexeme and the white space after it, passed in one move. -/
theorem skip_skipSpace : Refines (IndexRule.move fun i => i.skip? >>= IndexCursor.skipSpace?)
    (Rule.move fun c => c.skip.skipSpace) := by
  refine .move (fun c hc => ?_) fun c => (Cursor.keeps_skip c).trans (Cursor.keeps_skipSpace _)
  have hskip : c.skip.terminal.text = [] := by rw [(Cursor.keeps_skip c).terminal, hc]
  show c.indexed.skip? >>= IndexCursor.skipSpace? = _
  rw [Cursor.skip?_indexed]
  exact Cursor.skipSpace?_indexed hskip

end Refines

end IndexRule

namespace Grammar

open IndexRule

variable {g : Grammar}

/-! ### Literals -/

/-- By induction on the lexemes ahead; one round more than there are lexemes finds the end. -/
theorem gather_indexed (closes : Lexeme → Bool) {terminal : Lexeme} (hterminal : terminal.text = [])
    (depth : Nat) {rounds : Nat} {ahead : List Lexeme} (h : ahead.length < rounds) (run : TextRun)
    (behind : List Lexeme) :
    Indexed.gather closes rounds run (ReadState.indexed ⟨⟨behind, ahead, terminal⟩, depth⟩) =
      some (.ok ((gather closes run behind ahead).1.map TextRun.text), ReadState.indexed
        ⟨⟨(gather closes run behind ahead).2.1, (gather closes run behind ahead).2.2, terminal⟩,
          depth⟩) := by
  induction ahead generalizing rounds run behind with
  | nil =>
    obtain ⟨rounds, rfl⟩ := Nat.exists_eq_add_one.2 h
    have hread := (Refines.read ⟨⟨behind, [], terminal⟩, depth⟩ hterminal).1
    -- what is read beyond the last lexeme is empty, and no more rounds are needed
    have hend : terminal.isTerminal = true := by rw [Lexeme.isTerminal, hterminal]; rfl
    rw [Indexed.gather, bind_of_some hread]
    show (if terminal.isTerminal = true then _ else _ : IndexRule (Option Text)) _ = _
    rw [hend]
    rfl
  | cons l ahead ih =>
    obtain ⟨rounds, rfl⟩ := Nat.exists_eq_add_one.2 (Nat.zero_lt_of_lt h)
    have hread := (Refines.read ⟨⟨behind, l :: ahead, terminal⟩, depth⟩ hterminal).1
    rw [Indexed.gather, bind_of_some hread, gather]
    show (if l.isTerminal = true then _ else if closes l = true then _ else _ :
      IndexRule (Option Text)) _ = _
    split_ifs
    · rfl
    · rfl
    · exact ih (Nat.lt_of_succ_lt_succ h) _ _

theorem refines_textUpTo (closes : Lexeme → Bool) :
    Refines (Indexed.textUpTo closes) (textUpTo closes) := by
  intro s hs
  have hleft := (Refines.left s hs).1
  refine ⟨?_, hs⟩
  rw [Indexed.textUpTo, bind_of_some hleft]
  exact gather_indexed closes hs s.depth (Nat.lt_succ_self _) .empty s.cursor.behind

theorem refines_literal : Refines (Indexed.literal g) g.literal := by
  refine .bind .next fun opened => ?_
  cases opened.toQuote g.dialect with
  | none => exact .fail _
  | some quote =>
    refine .bind (refines_textUpTo _) fun content => ?_
    cases content with
    | none => exact .fail _
    | some value => exact .bind .skipSpace fun _ => .pure _

/-! ### Terms and operands -/

variable {operation' operand' : IndexRule Expr} {operation operand : Rule Expr}

theorem refines_inBracketsWith (h : Refines operation' operation) :
    Refines (Indexed.inBracketsWith g operation') (g.inBracketsWith operation) := by
  refine .bind .next fun opened => ?_
  cases g.opens? opened with
  | none => exact .fail _
  | some bracket =>
    refine .bind h fun inner => .bind .next fun closed => ?_
    cases g.closes? closed with
    | none => exact .fail _
    | some other =>
      refine .bind .skipSpace fun _ => ?_
      split_ifs
      · exact .pure _
      · exact .fail _

theorem refines_termWith (h : Refines operation' operation) :
    Refines (Indexed.termWith g operation') (g.termWith operation) := by
  refine .bind .skipSpace fun _ => .bind (.peek id) fun l => ?_
  cases l.classify g.dialect with
  | error e => exact .fail e
  | ok category =>
  cases category with
  | identifier name => exact .bind .skip_skipSpace fun _ => .pure _
  | numeric value => exact .bind .skip_skipSpace fun _ => .pure _
  | prefixOp op => exact h
  | quote q => exact refines_literal
  | bracket b opens =>
    cases opens with
    | true => exact refines_inBracketsWith h
    | false => exact .fail _
  | _ => exact .fail _

/-- The look beyond an infix operator comes back to where it started. -/
theorem continuesAsInfix_indexed {s : ReadState} (hs : s.cursor.terminal.text = []) :
    Indexed.continuesAsInfix g s.cursor.peekWord s.indexed =
      some (.ok (g.continuesAsInfix s.cursor), s.indexed) := by
  have hkeeps := Cursor.keeps_skipWord s.cursor
  have hs' : s.cursor.skipWord.terminal.text = [] := by rw [hkeeps.terminal, hs]
  unfold Indexed.continuesAsInfix continuesAsInfix
  split_ifs with hseen
  · have hsaved : IndexRule.look (fun i => some i.next) s.indexed =
        some (.ok s.cursor.position, s.indexed) := rfl
    have hskip : IndexRule.move IndexCursor.skipWord? s.indexed =
        some (.ok (), ReadState.indexed { s with cursor := s.cursor.skipWord }) :=
      (Refines.skipWord s hs).1
    have hpeek : IndexRule.look IndexCursor.peekWord?
        (ReadState.indexed { s with cursor := s.cursor.skipWord }) =
          some (.ok s.cursor.skipWord.peekWord,
            ReadState.indexed { s with cursor := s.cursor.skipWord }) :=
      (Refines.peekWord _ hs').1
    -- the lexemes are the same after the move, so the saved index is the same place
    have hback : IndexRule.move (fun i => some (i.seek s.cursor.position))
        (ReadState.indexed { s with cursor := s.cursor.skipWord }) = some (.ok (), s.indexed) := by
      show some (_, (⟨s.cursor.skipWord.indexed.seek s.cursor.position, s.depth⟩ : IndexState)) = _
      rw [Cursor.seek_indexed, hkeeps.seek_position]
      rfl
    rw [bind_of_some hsaved, bind_of_some hskip, bind_of_some hpeek, bind_of_some hback, hseen]
    rfl
  · rw [Bool.not_eq_true] at hseen
    rw [hseen]
    rfl

theorem refines_postfixOp : Refines (Indexed.postfixOp g) (Rule.look g.postfixOp?) := by
  intro s hs
  have hpeek := (Refines.peekWord s hs).1
  refine ⟨?_, hs⟩
  show _ = some (Except.ok (g.postfixOp? s.cursor), s.indexed)
  rw [Indexed.postfixOp, bind_of_some hpeek]
  show (match s.cursor.peekWord.toPostfixOp g.dialect with
    | none => Pure.pure none
    | some op => do
      let infixed ← Indexed.continuesAsInfix g s.cursor.peekWord
      return if infixed then none else some op : IndexRule (Option PostfixOp)) s.indexed = _
  cases hop : s.cursor.peekWord.toPostfixOp g.dialect with
  | none =>
    rw [postfixOp?, hop]
    split_ifs <;> rfl
  | some op =>
    dsimp only
    rw [bind_of_some (continuesAsInfix_indexed hs), postfixOp?, hop]
    rfl

theorem refines_operandWith (h : Refines operation' operation) :
    Refines (Indexed.operandWith g operation') (g.operandWith operation) := by
  refine .bind .skipSpace fun _ => .bind (.peek _) fun before => .bind ?_ fun _ =>
    .bind (refines_termWith h) fun term => .bind .skipSpace fun _ =>
    .bind refines_postfixOp fun after => .bind ?_ fun _ => .pure _
  · -- a prefix operator is passed, otherwise the cursor stays
    cases before with
    | none => exact .move (fun _ _ => rfl) fun c => .refl c
    | some op => exact .skipWord
  · -- a postfix operator is passed with the white space after it
    cases after with
    | none => exact .skipSpace
    | some op =>
      refine .move (fun c hc => ?_) fun c =>
        (Cursor.keeps_skipWord c).trans (Cursor.keeps_skipSpace _)
      have hskip : c.skipWord.terminal.text = [] := by rw [(Cursor.keeps_skipWord c).terminal, hc]
      show c.indexed.skipWord? >>= IndexCursor.skipSpace? = _
      rw [Cursor.skipWord?_indexed hc]
      exact Cursor.skipSpace?_indexed hskip

/-! ### Chains and sequences -/

theorem refines_linkWith (h : Refines operand' operand) :
    Refines (Indexed.linkWith g operand') (g.linkWith operand) :=
  .bind .skipWord fun _ => .bind h fun _ => .bind .skipSpace fun _ => .bind (.peek _) fun _ =>
    .pure _

/-- By induction on the rounds. -/
theorem refines_linksWith (h : Refines operand' operand) (lexemes : Nat) (op : InfixOp) :
    Refines (Indexed.linksWith g operand' lexemes op) (g.linksWith operand lexemes op) := by
  induction lexemes generalizing op with
  | zero => exact .pure _
  | succ lexemes ih =>
    refine .bind (refines_linkWith h) fun link => ?_
    obtain ⟨right, following⟩ := link
    cases following with
    | none => exact .pure _
    | some op' => exact .bind (ih op') fun _ => .pure _

theorem refines_separatorLexeme (separator : Separator) :
    Refines (Indexed.separatorLexeme separator) (separatorLexeme separator) := by
  unfold Indexed.separatorLexeme separatorLexeme
  split_ifs
  · exact .bind (.move (fun _ hc => Cursor.backSpace?_indexed hc) Cursor.keeps_backSpace)
      fun _ => .peek id
  · exact .peekWord

theorem refines_itemWith (h : Refines operand' operand) (separator : Separator) :
    Refines (Indexed.itemWith g operand' separator) (g.itemWith operand separator) := by
  refine .bind h fun term => .bind (refines_separatorLexeme separator) fun l => ?_
  cases l.toSeparator g.dialect with
  | none => exact .pure _
  | some found =>
    by_cases heq : found = separator
    · simp only [heq, if_true]
      refine .bind ?_ fun _ => .bind (.look fun c hc => ?_) fun _ => .pure _
      · cases separator.isWhitespace with
        | true => exact .skipSpace
        | false => exact .skipWord
      · cases separator.isWhitespace with
        | true => exact congrArg (Option.map Lexeme.isTerminal) (Cursor.peekWord?_indexed hc)
        | false => rfl
    · simp only [heq, if_false]
      exact .fail _

/-- By induction on the rounds. -/
theorem refines_itemsWith (h : Refines operand' operand) (separator : Separator) (rounds : Nat) :
    Refines (Indexed.itemsWith g operand' separator rounds)
      (g.itemsWith operand separator rounds) := by
  induction rounds with
  | zero => exact .pure _
  | succ rounds ih =>
    refine .bind (refines_itemWith h separator) fun item => ?_
    obtain ⟨term, more⟩ := item
    cases more with
    | true => exact .bind ih fun _ => .pure _
    | false => exact .pure _

theorem refines_sequenceFromWith (h : Refines operation' operation) (first : Expr)
    (separator : Separator) :
    Refines (Indexed.sequenceFromWith g operation' first separator)
      (g.sequenceFromWith operation first separator) := by
  have hoperand := refines_operandWith (g := g) h
  refine .bind .left fun lexemes => ?_
  exact .bind (refines_itemsWith hoperand separator (lexemes + 1)) fun _ => .pure _

theorem refines_runWith (h : Refines operation' operation) :
    Refines (Indexed.runWith g operation') (g.runWith operation) := by
  have hoperand := refines_operandWith (g := g) h
  refine .bind hoperand fun first => .bind .peekWord fun l => ?_
  -- a chain, a sequence with separators, or the operand alone
  cases l.toInfixOp g.dialect with
  | some op =>
    exact .bind .left fun lexemes => .bind (refines_linksWith hoperand lexemes op) fun _ => .pure _
  | none =>
    cases l.toSeparator g.dialect with
    | none => exact .pure _
    | some separator =>
      dsimp only
      split_ifs
      · exact .pure _
      · exact .bind .skipWord fun _ => refines_sequenceFromWith h first separator

/-! ### Operations -/

/-- By induction on the levels that are left. -/
theorem refines_operationWithin (levels : Nat) :
    Refines (Indexed.operationWithin g levels) (g.operationWithin levels) := by
  induction levels with
  | zero => exact fun s hs => ⟨rfl, hs⟩
  | succ levels ih => exact (refines_runWith ih).nested

theorem refines_operation : Refines (Indexed.operation g) g.operation :=
  fun s hs => refines_operationWithin (g.maxDepth - s.depth) s hs

/-- Whatever rule is called, it does the same with an index, and no index leaves the list. -/
theorem refines_call (m : Method) : Refines (Indexed.call g m) (g.call m) := by
  have hoperation : Refines (Indexed.operation g) g.operation := refines_operation
  cases m with
  | term => exact refines_termWith hoperation
  | literal => exact refines_literal
  | inBrackets => exact refines_inBracketsWith hoperation
  | operation => exact hoperation
  | operand => exact refines_operandWith hoperation
  | sequenceFrom first separator => exact refines_sequenceFromWith hoperation first separator
  | sequence =>
    refine .bind hoperation fun first => ?_
    split_ifs
    · exact .pure _
    refine .bind (.look fun c _ => congrArg (some ∘ Lexeme.isWhitespace) (Cursor.last_indexed c))
      fun spaced => .bind .peekWord fun l => ?_
    cases l.toSeparator g.dialect with
    | some separator =>
      exact .bind .skipWord fun _ => refines_sequenceFromWith hoperation first separator
    | none =>
      dsimp only
      split_ifs
      · exact .pure _
      · exact refines_sequenceFromWith hoperation first .space
      · exact .fail _

theorem refines_checkEnd :
    Refines (Indexed.checkEnd g) (fun s => (g.checkEnd s.cursor, s)) := by
  intro s hs
  have hpeek : IndexRule.look IndexCursor.peekWord? s.indexed =
      some (.ok s.cursor.peekWord, s.indexed) := (Refines.peekWord s hs).1
  refine ⟨?_, hs⟩
  show _ = some (g.checkEnd s.cursor, s.indexed)
  rw [Indexed.checkEnd, bind_of_some hpeek, checkEnd]
  cases s.cursor.peekWord.isTerminal with
  | true => rfl
  | false => cases s.cursor.peekWord.disallowedCategory g.dialect <;> rfl

end Grammar

end FlatExpr
