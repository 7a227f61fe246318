import FlatExpr.Proofs.Nesting

/-!
# Termination

The loops over the links of a chain, the terms of a sequence and the phrases of a list count their
rounds down from the number of lexemes ahead. Here the counting is shown to be no part of what they
do. `Rule.Loops` says what a loop without a count comes to: its body is repeated until a round fails
or has a result, so that a loop that would not end has no run. Each loop of the grammar has such a
run, with at most one round more than there are lexemes ahead, since a round after which there is
another passes a lexeme (`loops_textUpTo`, `loops_linksWith`, `loops_itemsWith`, `loops_many`).

Together with the progress of the rules and the bound on the nesting this is `Terminates`, which
holds at every place in every list of lexemes (`parsing_terminates`).
-/

namespace FlatExpr

/-! ## Loops without a count -/

namespace Rule

variable {σ β : Type}

/-- The runs of a loop that repeats `body`, each round with the value that the one before it gave,
until a round fails or has a result. -/
inductive Loops (body : σ → Rule (σ ⊕ β)) :
    (rounds : Nat) → σ → ReadState → Except ParseError β × ReadState → Prop where
  /-- The round fails, and the loop with it. -/
  | fails {a : σ} {s t : ReadState} {e : ParseError} (round : body a s = (.error e, t)) :
      Loops body 1 a s (.error e, t)
  /-- The round has a result. -/
  | ends {a : σ} {s t : ReadState} {b : β} (round : body a s = (.ok (.inr b), t)) :
      Loops body 1 a s (.ok b, t)
  /-- There are further rounds. -/
  | again {a a' : σ} {s t : ReadState} {rounds : Nat} {x : Except ParseError β × ReadState}
      (round : body a s = (.ok (.inl a'), t)) (others : Loops body rounds a' t x) :
      Loops body (rounds + 1) a s x

/-- The body of a loop that collects a list. A round finds some elements; if it also gives a value,
there is another round with that. -/
def collect (step : σ → Rule (List β × Option σ)) (p : List β × σ) :
    Rule ((List β × σ) ⊕ List β) := do
  let (found, next) ← step p.2
  match next with
  | none => return .inr (p.1 ++ found)
  | some a => return .inl (p.1 ++ found, a)

/-- Such a loop with a count of the rounds that are left, and why the count is never used up: while
`holds`, every round after which there is another makes the measure smaller. -/
structure Counts (step : σ → Rule (List β × Option σ)) (counted : Nat → σ → Rule (List β))
    (holds : σ → ReadState → Prop) (measure : ReadState → Nat) : Prop where
  /-- The loop with one round more. -/
  counted_succ : ∀ n a, counted (n + 1) a = do
    let (found, next) ← step a
    match next with
    | none => return found
    | some a' => do
      let others ← counted n a'
      return found ++ others
  /-- What a round does that is not the last. -/
  round : ∀ {a s found a' t}, holds a s → step a s = (.ok (found, some a'), t) →
    holds a' t ∧ measure t < measure s

section Counts

variable {step : σ → Rule (List β × Option σ)} {counted : Nat → σ → Rule (List β)}
  {holds : σ → ReadState → Prop} {measure : ReadState → Nat} {n : Nat} {a : σ} {s : ReadState}

/-- By induction on the count: with a count above the measure, what the loop comes to is what the
counted one does. -/
theorem Counts.loops_from (hcounts : Counts step counted holds measure) (h : holds a s)
    (hn : measure s < n) (collected : List β) :
    ∃ rounds ≤ measure s + 1, Loops (collect step) rounds (collected, a) s
      ((counted n a s).1.map (collected ++ ·), (counted n a s).2) := by
  induction n generalizing a s collected with
  | zero => exact absurd hn (Nat.not_lt_zero _)
  | succ n ih =>
    rw [hcounts.counted_succ, bind_apply]
    rcases hstep : step a s with ⟨e | ⟨found, _ | a'⟩, t⟩
    · have hbody : collect step (collected, a) s = (.error e, t) := by
        rw [collect, bind_apply, hstep]
      exact ⟨1, by omega, .fails hbody⟩
    · have hbody : collect step (collected, a) s = (.ok (.inr (collected ++ found)), t) := by
        rw [collect, bind_of_ok hstep]
        rfl
      exact ⟨1, by omega, .ends hbody⟩
    · have hbody : collect step (collected, a) s = (.ok (.inl (collected ++ found, a')), t) := by
        rw [collect, bind_of_ok hstep]
        rfl
      -- the measure is smaller, as is the count, so that the other rounds fit too
      obtain ⟨hholds, hless⟩ := hcounts.round h hstep
      obtain ⟨rounds, hrounds, hloop⟩ := ih hholds (by omega) (collected ++ found)
      refine ⟨rounds + 1, by omega, .again hbody ?_⟩
      dsimp only
      rw [bind_apply]
      rcases hothers : counted n a' t with ⟨_ | others, t'⟩
      · rwa [hothers] at hloop
      · rw [hothers] at hloop
        show Loops (collect step) rounds _ t (.ok (collected ++ (found ++ others)), t')
        rw [← List.append_assoc]
        exact hloop

/-- The loop as it starts, with nothing collected. -/
theorem Counts.loops (hcounts : Counts step counted holds measure) (h : holds a s)
    (hn : measure s < n) :
    ∃ rounds ≤ measure s + 1, Loops (collect step) rounds ([], a) s (counted n a s) := by
  obtain ⟨rounds, hrounds, hloop⟩ := hcounts.loops_from h hn []
  refine ⟨rounds, hrounds, ?_⟩
  rcases hrun : counted n a s with ⟨_ | others, t⟩
  · rwa [hrun] at hloop
  · rwa [hrun] at hloop

end Counts

/-- After a round that passes a word there are fewer lexemes ahead. -/
theorem Progresses.length_lt {α : Type} {r : Rule α} (h : Progresses true r) {s t : ReadState}
    {a : α} (hs : s.cursor.terminal.text = []) (hrun : r s = (.ok a, t)) :
    t.cursor.ahead.length < s.cursor.ahead.length := by
  have hadvances := h s hs
  rw [hrun] at hadvances
  exact hadvances.onward.length_lt (hadvances.load rfl a rfl)

end Rule

namespace Cursor

variable {c : Cursor}

/-- An operator is not seen beyond the end of the lexemes. -/
theorem ahead_ne_nil_of_toInfixOp {d : Dialect} {op : InfixOp} (hc : c.terminal.text = [])
    (h : c.peek.toInfixOp d = some op) : c.ahead ≠ [] := by
  intro hahead
  have hpeek : c.peek = c.terminal := by unfold peek; rw [hahead]
  have htext : c.peek.text = op.symbol := ((Allowed.spelled?_eq_some_iff _ _ _).1 h).1
  rw [hpeek, hc] at htext
  exact OneSpelling.symbol_ne_nil op htext.symm

theorem atEnd_of_ahead_nil (hc : c.terminal.text = []) (h : c.ahead = []) : c.atEnd = true := by
  have hpeek : c.peek = c.terminal := by unfold peek; rw [h]
  have hsettled : c.peek.isWhitespace = false := by
    rw [hpeek, Lexeme.isWhitespace, hc]
    rfl
  unfold atEnd peekWord
  rw [skipSpace_of_settled hsettled, hpeek, Lexeme.isTerminal, hc]
  rfl

end Cursor

/-! ## The loops of the grammar -/

namespace Grammar

open Rule Cursor

variable {g : Grammar} {operand : Rule Expr} {s : ReadState}

/-! ### Literals -/

/-- A round of the loop over a literal: the next lexeme is passed, and joins the run unless the
literal ends with it. -/
def literalRound (closes : Lexeme → Bool) (run : TextRun) : Rule (TextRun ⊕ Option Text) := do
  let l ← look Cursor.peek
  move Cursor.skip
  if l.isTerminal then return .inr none
  else if closes l then return .inr (some run.text)
  else return .inl (run.push l)

/-- By induction on the lexemes ahead. -/
theorem loops_gather (closes : Lexeme → Bool) (run : TextRun)
    (hs : s.cursor.terminal.text = []) :
    ∃ rounds ≤ s.cursor.ahead.length + 1, Loops (literalRound closes) rounds run s
      (let (found, behind, ahead) := gather closes run s.cursor.behind s.cursor.ahead
       (.ok (found.map TextRun.text), { s with cursor := { s.cursor with behind, ahead } })) := by
  obtain ⟨⟨behind, ahead, terminal⟩, depth⟩ := s
  dsimp only at hs ⊢
  induction ahead generalizing run behind with
  | nil =>
    have hend : terminal.isTerminal = true := by
      rw [Lexeme.isTerminal, hs]
      rfl
    have hround : literalRound closes run ⟨⟨behind, [], terminal⟩, depth⟩ =
        (.ok (.inr none), ⟨⟨behind, [], terminal⟩, depth⟩) := by
      rw [literalRound, look_bind, move_bind]
      exact congrFun (if_pos hend) _
    exact ⟨1, Nat.le_refl _, .ends hround⟩
  | cons l ls ih =>
    have hround : literalRound closes run ⟨⟨behind, l :: ls, terminal⟩, depth⟩ =
        (if l.isTerminal then return .inr none
          else if closes l then return .inr (some run.text)
          else return .inl (run.push l) : Rule (TextRun ⊕ Option Text))
          ⟨⟨l :: behind, ls, terminal⟩, depth⟩ := rfl
    unfold gather
    split_ifs at hround ⊢ with hterminal hcloses
    · exact ⟨1, by omega, .ends hround⟩
    · exact ⟨1, by omega, .ends hround⟩
    · obtain ⟨rounds, hrounds, hloop⟩ := ih (run.push l) (l :: behind)
      exact ⟨rounds + 1, by simp only [List.length_cons]; omega, .again hround hloop⟩

theorem loops_textUpTo (closes : Lexeme → Bool) (hs : s.cursor.terminal.text = []) :
    ∃ rounds ≤ s.cursor.ahead.length + 1,
      Loops (literalRound closes) rounds .empty s (textUpTo closes s) :=
  loops_gather closes .empty hs

/-! ### Chains -/

/-- A round of the loop over a chain: an operator and its operand, and the operator that follows. -/
def linkStep (g : Grammar) (operand : Rule Expr) (op : InfixOp) :
    Rule (List (InfixOp × Expr) × Option InfixOp) := do
  let (right, following) ← g.linkWith operand
  return ([(op, right)], following)

/-- There is another round only where an operator is ahead, so that no round starts at the end of
the lexemes. -/
theorem counts_linksWith (h : Progresses true operand) :
    Counts (g.linkStep operand) (g.linksWith operand)
      (fun _ s => s.cursor.terminal.text = [] ∧ s.cursor.ahead ≠ [])
      (fun s => s.cursor.ahead.length - 1) where
  counted_succ n op := by
    simp only [linkStep, linksWith, bind_assoc, pure_bind, List.singleton_append]
    refine bind_congr fun link => ?_
    obtain ⟨right, _ | op'⟩ := link <;> rfl
  round := by
    rintro op s found op' t ⟨hs, hahead⟩ hstep
    obtain ⟨⟨right, following⟩, t', hlink, hend⟩ := bind_eq_ok_iff.1 hstep
    obtain ⟨hvalue, rfl⟩ := pure_eq_ok_iff.1 hend
    cases hvalue
    have ht := (progresses_linkWith h).terminal_eq hlink hs
    have hless := (progresses_linkWith h).length_lt hs hlink
    obtain ⟨u, -, hfollowing, rfl⟩ := linkWith_eq_ok_iff.1 hlink
    have hmore : u.cursor.skipSpace.ahead ≠ [] := ahead_ne_nil_of_toInfixOp ht hfollowing
    have hpos := List.length_pos_iff.2 hmore
    refine ⟨⟨ht, hmore⟩, ?_⟩
    dsimp only at hless ⊢
    omega

theorem loops_linksWith (h : Progresses true operand) (op : InfixOp)
    (hs : s.cursor.terminal.text = []) (hahead : s.cursor.ahead ≠ []) :
    ∃ rounds ≤ s.cursor.ahead.length, Loops (collect (g.linkStep operand)) rounds ([], op) s
      (g.linksWith operand s.cursor.ahead.length op s) := by
  have hlength : 0 < s.cursor.ahead.length := List.length_pos_iff.2 hahead
  obtain ⟨rounds, hrounds, hloop⟩ :=
    (counts_linksWith h).loops ⟨hs, hahead⟩ (Nat.sub_one_lt_of_lt hlength)
  exact ⟨rounds, by omega, hloop⟩

/-! ### Sequences -/

/-- A round of the loop over a sequence: a term, and whether another one follows it. -/
def itemStep (g : Grammar) (operand : Rule Expr) (separator : Separator) (_ : Unit) :
    Rule (List Expr × Option Unit) := do
  let (term, more) ← g.itemWith operand separator
  return ([term], if more then some () else none)

theorem counts_itemsWith (h : Progresses true operand) (separator : Separator) :
    Counts (g.itemStep operand separator) (fun n _ => g.itemsWith operand separator n)
      (fun _ s => s.cursor.terminal.text = []) (fun s => s.cursor.ahead.length) where
  counted_succ n _ := by
    simp only [itemStep, itemsWith, bind_assoc, pure_bind, List.singleton_append]
    refine bind_congr fun item => ?_
    obtain ⟨term, _ | _⟩ := item <;> rfl
  round := by
    intro _ s found _ t hs hstep
    obtain ⟨item, t', hitem, hend⟩ := bind_eq_ok_iff.1 hstep
    obtain ⟨-, rfl⟩ := pure_eq_ok_iff.1 hend
    have hprogress : Progresses true (g.itemWith operand separator) :=
      progresses_itemWith h separator
    exact ⟨hprogress.terminal_eq hitem hs, hprogress.length_lt hs hitem⟩

theorem loops_itemsWith (h : Progresses true operand) (separator : Separator)
    (hs : s.cursor.terminal.text = []) :
    ∃ rounds ≤ s.cursor.ahead.length + 1,
      Loops (collect (g.itemStep operand separator)) rounds ([], ()) s
        (g.itemsWith operand separator (s.cursor.ahead.length + 1) s) :=
  (counts_itemsWith h separator).loops hs (Nat.lt_succ_self _)

/-! ### Lists -/

/-- A round of the loop over a list: nothing at the end of the lexemes, and else a phrase. -/
def phraseStep (rule : Rule Expr) (_ : Unit) : Rule (List Expr × Option Unit) := do
  let ended ← look Cursor.atEnd
  if ended then return ([], none)
  else do
    let e ← rule
    return ([e], some ())

theorem counts_many {rule : Rule Expr} (h : Progresses true rule) :
    Counts (phraseStep rule) (fun n _ => many rule n) (fun _ s => s.cursor.terminal.text = [])
      (fun s => s.cursor.ahead.length) where
  counted_succ n _ := by
    simp only [phraseStep, many, bind_assoc]
    refine bind_congr fun ended => ?_
    cases ended with
    | true => rfl
    | false =>
      simp only [Bool.false_eq_true, if_false, bind_assoc, pure_bind]
      rfl
  round := by
    intro _ s found _ t hs hstep
    rw [phraseStep, look_bind] at hstep
    split_ifs at hstep
    · cases (pure_eq_ok_iff.1 hstep).1
    · obtain ⟨e, t', hrule, hend⟩ := bind_eq_ok_iff.1 hstep
      obtain ⟨-, rfl⟩ := pure_eq_ok_iff.1 hend
      exact ⟨h.terminal_eq hrule hs, h.length_lt hs hrule⟩

/-- The last round, which only finds the end, need not be counted. -/
theorem many_succ {rule : Rule Expr} (h : Progresses true rule) {n : Nat}
    (hs : s.cursor.terminal.text = []) (hn : s.cursor.ahead.length ≤ n) :
    many rule (n + 1) s = many rule n s := by
  induction n generalizing s with
  | zero =>
    have hend : s.cursor.atEnd = true :=
      atEnd_of_ahead_nil hs (List.length_eq_zero_iff.1 (Nat.le_zero.1 hn))
    unfold many
    rw [look_bind, hend]
    rfl
  | succ n ih =>
    rw [many, many, look_bind, look_bind]
    split_ifs
    · rfl
    · rw [bind_apply, bind_apply]
      rcases hrun : rule s with ⟨_ | e, t⟩
      · rfl
      · -- the phrase passed a lexeme, so that the count is still enough for those left
        have hless := h.length_lt hs hrun
        exact bind_congr_left (ih (h.terminal_eq hrun hs) (by omega))

theorem loops_many {rule : Rule Expr} (h : Progresses true rule)
    (hs : s.cursor.terminal.text = []) :
    ∃ rounds ≤ s.cursor.ahead.length + 1,
      Loops (collect (phraseStep rule)) rounds ([], ()) s (many rule s.cursor.ahead.length s) := by
  rw [← many_succ h hs (Nat.le_refl _)]
  exact (counts_many h).loops hs (Nat.lt_succ_self _)

/-! ## Reading ends -/

/-- What is said of the readings from `s`: whichever rule is called, they go forward and end. -/
structure Terminates (g : Grammar) (s : ReadState) : Prop where
  /-- No rule leaves the cursor before the place where it started. -/
  forward : ∀ m, s.cursor.position ≤ (g.call m s).2.cursor.position
  /-- A rule that succeeds leaves the cursor after that place. -/
  passes : ∀ m e t, g.call m s = (.ok e, t) → s.cursor.position < t.cursor.position
  /-- An operation runs nested operations, which are counted against the limit alone. -/
  operation : g.operation s =
    if s.depth < g.maxDepth then nested (g.runWith g.operation) s else g.refuse s
  /-- The nesting ends by itself: with a level for every lexeme ahead and one more, it does not
  matter what the limit is. -/
  nesting : ∀ m limit limit', s.depth + s.cursor.ahead.length < limit →
    s.depth + s.cursor.ahead.length < limit' →
    (⟨g.dialect, limit⟩ : Grammar).call m s = (⟨g.dialect, limit'⟩ : Grammar).call m s
  /-- The loop over the lexemes of a literal ends. -/
  literal : ∀ closes, ∃ rounds ≤ s.cursor.ahead.length + 1,
    Loops (literalRound closes) rounds .empty s (textUpTo closes s)
  /-- The loop over the links of a chain, which starts at an operator, ends. -/
  chain : ∀ op, s.cursor.peekWord.toInfixOp g.dialect = some op →
    ∃ rounds ≤ s.cursor.ahead.length, Loops (collect (g.linkStep g.operand)) rounds ([], op) s
      (g.linksWith g.operand s.cursor.ahead.length op s)
  /-- The loop over the terms of a sequence ends. -/
  items : ∀ separator, ∃ rounds ≤ s.cursor.ahead.length + 1,
    Loops (collect (g.itemStep g.operand separator)) rounds ([], ()) s
      (g.itemsWith g.operand separator (s.cursor.ahead.length + 1) s)
  /-- The loop over a list of phrases of any kind ends. -/
  list : ∀ m, ∃ rounds ≤ s.cursor.ahead.length + 1,
    Loops (collect (phraseStep (g.call m))) rounds ([], ()) s
      (many (g.call m) s.cursor.ahead.length s)

/-- All that is needed is that nothing is seen beyond the ends of the lexemes. -/
theorem terminates (g : Grammar) (hs : s.cursor.terminal.text = []) : g.Terminates s where
  forward m := (progresses_call m s hs).onward.position
  passes m e t hrun := by
    have hadvances := progresses_call (g := g) m s hs
    rw [hrun] at hadvances
    exact hadvances.onward.position_lt (hadvances.load rfl e rfl)
  operation := operation_eq hs
  nesting m limit limit' hlimit hlimit' :=
    sameBelow_call hlimit hlimit' m s hs (Nat.lt_succ_self _) rfl
  literal closes := loops_textUpTo closes hs
  chain op hop := by
    have hspace := onward_skipSpace s.cursor
    have hahead : s.cursor.skipSpace.ahead ≠ [] :=
      ahead_ne_nil_of_toInfixOp (by rw [hspace.keeps.terminal, hs]) hop
    have hlength := List.length_pos_iff.2 hahead
    exact loops_linksWith (progresses_call .operand) op hs
      (List.length_pos_iff.1 (lt_of_lt_of_le hlength hspace.length_le))
  items separator := loops_itemsWith (progresses_call .operand) separator hs
  list m := loops_many (progresses_call m) hs

/-- A list of phrases read from a source has no more of them than the source has lexemes other than
white space. -/
theorem length_parseMany_le {rule : Rule Expr} (h : Progresses true rule) {source : Text}
    {es : List Expr} (hparse : parseMany rule source = .ok es) :
    es.length ≤ (Lexeme.all source).countP fun l => !l.isWhitespace :=
  length_many_le h (tidy_ofSource source).terminal (Prod.ext hparse rfl)

/-- Reading goes forward and ends, at every place in every list of lexemes, at every depth and under
every limit; and the entry points for lists return no more phrases than there are words. -/
theorem parsing_terminates (g : Grammar) :
    (∀ lexemes n depth, g.Terminates ⟨(Cursor.ofLexemes lexemes).seek n, depth⟩) ∧
      ∀ source es, g.parseTerms source = .ok es ∨ g.parseExpressions source = .ok es →
        es.length ≤ (Lexeme.all source).countP fun l => !l.isWhitespace := by
  refine ⟨fun lexemes n depth => terminates g (terminal_seek lexemes n), ?_⟩
  rintro source es (hterms | hexpressions)
  · exact length_parseMany_le (progresses_call (g := g) .term) hterms
  · exact length_parseMany_le progresses_operation hexpressions

/-- An operator behind two lexemes of white space, with an empty lexeme after it and a limit far
beyond the lexemes; and a list of three terms. -/
theorem parsing_terminates_blanks :
    ({ maxDepth := 1000000000 } : Grammar).Terminates
      ⟨(Cursor.ofTexts [" ".toList, "\t ".toList, "-".toList, [], "x".toList]).seek 0, 3⟩ ∧
    ({} : Grammar).parseTerms "a (b) 7".toList = .ok [.identifier "a".toList,
      .bracketed .parenthesis (.identifier "b".toList), .numeric "7".toList] ∧
    3 ≤ (Lexeme.all "a (b) 7".toList).countP fun l => !l.isWhitespace := by
  have hparse : ({} : Grammar).parseTerms "a (b) 7".toList = .ok [.identifier "a".toList,
      .bracketed .parenthesis (.identifier "b".toList), .numeric "7".toList] := by decide +kernel
  exact ⟨(parsing_terminates { maxDepth := 1000000000 }).1 _ 0 3, hparse,
    (parsing_terminates {}).2 _ _ (.inl hparse)⟩

end Grammar

end FlatExpr
