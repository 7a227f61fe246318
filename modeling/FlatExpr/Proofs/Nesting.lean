import FlatExpr.Proofs.Progress

/-!
# Nesting and the lexemes ahead

An operation runs nested operations, and the limit on the nesting stops that. It would stop without
a limit too: a nested operation starts with fewer lexemes ahead than the one it stands in, so the
levels are never more than the lexemes ahead, and every limit beyond that gives the same reading
(`sameBelow_call`). White space counts here, unlike in the measure of progress: where several
lexemes of white space follow each other, an operand misses a prefix operator behind them that its
term finds, and the term starts a nested operation before any word was passed.

The levels that an operation counts down are therefore those of the limit and of nothing else, and
the operation satisfies the equation in which nothing is counted (`operation_eq`).
-/

namespace FlatExpr

/-! ## White space is passed -/

theorem Cursor.length_skipSpace_lt {c : Cursor} (h : c.skipSpace ≠ c) :
    c.skipSpace.ahead.length < c.ahead.length := by
  unfold skipSpace at h ⊢
  split_ifs at h ⊢
  · cases hahead : c.ahead with
    | nil => exact absurd (by unfold skip; rw [hahead]) h
    | cons l ls => simp [skip_of_ahead hahead]
  · exact absurd rfl h

/-! ## Rules that agree with few lexemes ahead -/

namespace Rule

variable {α β : Type} {n k : Nat}

/-- At the depth `k` of nesting and with fewer than `n` lexemes ahead, the two rules do the same. -/
def SameBelow (n k : Nat) (r r' : Rule α) : Prop :=
  ∀ s : ReadState, s.cursor.terminal.text = [] → s.cursor.ahead.length < n → s.depth = k →
    r s = r' s

theorem bind_congr_left {r r' : Rule α} {f : α → Rule β} {s : ReadState} (h : r s = r' s) :
    (r >>= f) s = (r' >>= f) s := by
  rw [bind_apply, bind_apply, h]

namespace SameBelow

theorem refl (r : Rule α) : SameBelow n k r r := fun _ _ _ _ => rfl

theorem bind {r r' : Rule α} {f f' : α → Rule β} (h : SameBelow n k r r')
    (hr : Progresses false r) (hf : ∀ a, SameBelow n k (f a) (f' a)) :
    SameBelow n k (r >>= f) (r' >>= f') := by
  intro s hs hn hk
  have hrun := hr s hs
  rw [bind_apply, bind_apply, ← h s hs hn hk]
  rcases heq : r s with ⟨_ | a, t⟩
  · rfl
  · -- what is ahead after the first rule was ahead before it
    rw [heq] at hrun
    exact hf a t (hr.terminal_eq heq hs) (lt_of_le_of_lt hrun.onward.length_le hn)
      (by rw [hrun.depth a rfl, hk])

theorem bind_left {r r' : Rule α} {f : α → Rule β} (h : SameBelow n k r r') :
    SameBelow n k (r >>= f) (r' >>= f) :=
  fun s hs hn hk => bind_congr_left (h s hs hn hk)

theorem bind_right {r : Rule α} {f f' : α → Rule β} (hr : Progresses false r)
    (hf : ∀ a, SameBelow n k (f a) (f' a)) : SameBelow n k (r >>= f) (r >>= f') :=
  .bind (.refl r) hr hf

theorem nested {r r' : Rule α} (h : SameBelow n (k + 1) r r') :
    SameBelow n k (Rule.nested r) (Rule.nested r') := by
  intro s hs hn hk
  have hinner := h { s with depth := s.depth + 1 } hs hn (by rw [hk])
  unfold Rule.nested
  rw [hinner]

theorem of_le {m : Nat} {r r' : Rule α} (h : SameBelow n k r r') (hmn : m ≤ n) :
    SameBelow m k r r' :=
  fun s hs hm hk => h s hs (lt_of_lt_of_le hm hmn) hk

end SameBelow

end Rule

/-! ## The rules of the grammar -/

namespace Grammar

open Rule Cursor

variable {g : Grammar} {operation operation' operand operand' : Rule Expr} {n k : Nat}

/-- The bracket is passed before the operation in it. -/
theorem sameBelow_inBracketsWith (h : SameBelow n k operation operation') :
    SameBelow (n + 1) k (g.inBracketsWith operation) (g.inBracketsWith operation') := by
  intro s hs hn hk
  have hword := onward_skipWord s.cursor
  simp only [inBracketsWith, next_bind]
  cases hopens : g.opens? s.cursor.peekWord with
  | none => rfl
  | some bracket =>
    have hsolid : Text.IsSolid s.cursor.peekWord.text := by
      rw [((g.opens?_eq_some_iff _ _).1 hopens).1]
      exact bracket.isSolid_opening
    have hlength := hword.length_lt (load_skipWord_lt hs hsolid)
    exact bind_congr_left
      (h { s with cursor := s.cursor.skipWord } (by rw [hword.keeps.terminal, hs])
        (by show s.cursor.skipWord.ahead.length < n; omega) hk)

/-- A term that starts with a prefix operator is an operation from the same place; only where white
space was passed before it are there fewer lexemes ahead of the operation. -/
theorem termWith_congr (h : SameBelow n k operation operation') {s : ReadState}
    (hs : s.cursor.terminal.text = []) (hn : s.cursor.ahead.length < n + 1) (hk : s.depth = k)
    (hlead : s.cursor.peekWord.toPrefixOp g.dialect ≠ none →
      s.cursor.skipSpace.ahead.length < n) :
    g.termWith operation s = g.termWith operation' s := by
  have hspace := onward_skipSpace s.cursor
  have hs' : s.cursor.skipSpace.terminal.text = [] := by rw [hspace.keeps.terminal, hs]
  have hpeek : s.cursor.skipSpace.peek = s.cursor.peekWord := rfl
  simp only [termWith, move_bind, look_bind, hpeek]
  cases hcategory : s.cursor.peekWord.classify g.dialect with
  | error e => rfl
  | ok category =>
  cases category with
  | prefixOp op =>
    have hsome : s.cursor.peekWord.toPrefixOp g.dialect = some op :=
      (Allowed.spelled?_eq_some_iff _ _ _).2 ((Lexeme.classify_eq_prefixOp_iff op).1 hcategory)
    exact h { s with cursor := s.cursor.skipSpace } hs'
      (hlead (by rw [hsome]; exact Option.some_ne_none op)) hk
  | bracket b opens =>
    cases opens with
    | false => rfl
    | true =>
      exact sameBelow_inBracketsWith h { s with cursor := s.cursor.skipSpace } hs'
        (lt_of_le_of_lt hspace.length_le hn) hk
  | _ => rfl

/-- A lexeme is passed before the operation in an operand: the prefix operator, or a second lexeme
of white space that hid it. -/
theorem sameBelow_operandWith (h : SameBelow n k operation operation') :
    SameBelow (n + 1) k (g.operandWith operation) (g.operandWith operation') := by
  intro s hs hn hk
  have hspace := onward_skipSpace s.cursor
  have hs' : s.cursor.skipSpace.terminal.text = [] := by rw [hspace.keeps.terminal, hs]
  have hn' := lt_of_le_of_lt hspace.length_le hn
  simp only [operandWith, move_bind, look_bind]
  refine bind_congr_left ?_
  cases hbefore : s.cursor.skipSpace.peek.toPrefixOp g.dialect with
  | none =>
    simp only [Option.isSome_none, Bool.false_eq_true, if_false]
    refine termWith_congr h hs' hn' hk ?_
    intro hsome
    -- the term sees an operator that the operand did not, from behind more white space
    have hmoved : s.cursor.skipSpace.skipSpace ≠ s.cursor.skipSpace := by
      intro heq
      exact hsome (by unfold peekWord; rw [heq, hbefore])
    have hlength := length_skipSpace_lt hmoved
    dsimp only
    omega
  | some op =>
    have hword := onward_skipWord s.cursor.skipSpace
    have htext := ((Allowed.spelled?_eq_some_iff _ _ _).1 hbefore).1
    have hsolid : Text.IsSolid s.cursor.skipSpace.peek.text := by
      rw [htext]
      exact PrefixOp.isSolid_symbol op
    -- the operator is no white space, so that it is what the operand passes
    have hsettled : s.cursor.skipSpace.skipSpace = s.cursor.skipSpace :=
      skipSpace_of_settled hsolid.2
    have hload : s.cursor.skipSpace.skipWord.load < s.cursor.skipSpace.load := by
      unfold skipWord
      rw [hsettled]
      exact load_skip_lt hs' hsolid
    have hlength := hword.length_lt hload
    have hpassed : s.cursor.skipSpace.skipWord.ahead.length < n := by omega
    simp only [Option.isSome_some, if_true]
    refine termWith_congr h (by rw [hword.keeps.terminal, hs']) (by dsimp only; omega) hk ?_
    intro _
    exact lt_of_le_of_lt (onward_skipSpace _).length_le hpassed

theorem sameBelow_linksWith (hp : Progresses true operand) (h : SameBelow n k operand operand')
    (lexemes : Nat) (op : InfixOp) :
    SameBelow n k (g.linksWith operand lexemes op) (g.linksWith operand' lexemes op) := by
  induction lexemes generalizing op with
  | zero => exact .refl _
  | succ lexemes ih =>
    have hlink : SameBelow n k (g.linkWith operand) (g.linkWith operand') :=
      .bind_right (.move onward_skipWord) fun _ => .bind_left h
    refine .bind hlink (progresses_linkWith hp).weaken fun link => ?_
    obtain ⟨right, following⟩ := link
    cases following with
    | none => exact .refl _
    | some op' => exact .bind_left (ih op')

theorem sameBelow_itemsWith (hp : Progresses true operand) (h : SameBelow n k operand operand')
    (separator : Separator) (rounds : Nat) :
    SameBelow n k (g.itemsWith operand separator rounds)
      (g.itemsWith operand' separator rounds) := by
  induction rounds with
  | zero => exact .refl _
  | succ rounds ih =>
    refine .bind (.bind_left h) (progresses_itemWith hp separator).weaken fun item => ?_
    obtain ⟨term, more⟩ := item
    dsimp only
    split_ifs
    · exact .bind_left ih
    · exact .refl _

theorem sameBelow_sequenceFromWith (hp : Progresses true operation)
    (h : SameBelow n k operation operation') (first : Expr) (separator : Separator) :
    SameBelow (n + 1) k (g.sequenceFromWith operation first separator)
      (g.sequenceFromWith operation' first separator) :=
  .bind_right (.look _) fun _ => .bind_left
    (sameBelow_itemsWith (progresses_operandWith hp) (sameBelow_operandWith h) separator _)

theorem sameBelow_runWith (hp : Progresses true operation)
    (h : SameBelow n k operation operation') :
    SameBelow (n + 1) k (g.runWith operation) (g.runWith operation') := by
  have hoperand : Progresses true (g.operandWith operation) := progresses_operandWith hp
  refine .bind (sameBelow_operandWith h) hoperand.weaken fun left =>
    .bind_right (.look _) fun l => ?_
  cases l.toInfixOp g.dialect with
  | some op =>
    exact .bind_right (.look _) fun _ =>
      .bind_left (sameBelow_linksWith hoperand (sameBelow_operandWith h) _ op)
  | none =>
    cases l.toSeparator g.dialect with
    | none => exact .refl _
    | some separator =>
      dsimp only
      split_ifs
      · exact .refl _
      · exact .bind_right (.move onward_skipWord) fun _ =>
          sameBelow_sequenceFromWith hp h left separator

/-! ## Levels of nesting -/

section Limits

variable {d : Dialect} {limit limit' : Nat}

/-- By induction on the number of lexemes: each level takes one of them. -/
theorem sameBelow_operationWithin {levels levels' : Nat} (hn : n ≤ levels) (hn' : n ≤ levels') :
    SameBelow n k ((⟨d, limit⟩ : Grammar).operationWithin levels)
      ((⟨d, limit'⟩ : Grammar).operationWithin levels') := by
  induction n generalizing k levels levels' with
  | zero => exact fun s _ hlength => absurd hlength (Nat.not_lt_zero _)
  | succ n ih =>
    obtain ⟨levels, rfl⟩ : ∃ m, levels = m + 1 := ⟨levels - 1, by omega⟩
    obtain ⟨levels', rfl⟩ : ∃ m, levels' = m + 1 := ⟨levels' - 1, by omega⟩
    rw [operationWithin, operationWithin, runWith_limit d limit limit']
    exact .nested (sameBelow_runWith (progresses_operationWithin levels)
      (ih (by omega) (by omega)))

theorem sameBelow_operation (hn : k + n ≤ limit) (hn' : k + n ≤ limit') :
    SameBelow n k (⟨d, limit⟩ : Grammar).operation (⟨d, limit'⟩ : Grammar).operation := by
  intro s hs hlength hk
  exact sameBelow_operationWithin (by show n ≤ limit - s.depth; omega)
    (by show n ≤ limit' - s.depth; omega) s hs hlength hk

/-- Whatever rule is called, limits that leave a level for every lexeme ahead and one more do not
change what it does. -/
theorem sameBelow_call (hn : k + n ≤ limit) (hn' : k + n ≤ limit') (m : Method) :
    SameBelow n k ((⟨d, limit⟩ : Grammar).call m) ((⟨d, limit'⟩ : Grammar).call m) := by
  have hprogress : Progresses true (⟨d, limit⟩ : Grammar).operation := progresses_operation
  have hoperation : SameBelow n k (⟨d, limit⟩ : Grammar).operation
    (⟨d, limit'⟩ : Grammar).operation := sameBelow_operation hn hn'
  have hsequence (first : Expr) (separator : Separator) :
      SameBelow n k ((⟨d, limit⟩ : Grammar).sequenceFrom first separator)
        ((⟨d, limit'⟩ : Grammar).sequenceFrom first separator) := by
    rw [sequenceFrom, sequenceFrom, sequenceFromWith_limit d limit limit']
    exact (sameBelow_sequenceFromWith hprogress hoperation first separator).of_le (Nat.le_succ n)
  cases m with
  | term =>
    intro s hs hlength hk
    exact termWith_congr (g := ⟨d, limit⟩) hoperation hs (by omega) hk fun _ =>
      lt_of_le_of_lt (onward_skipSpace s.cursor).length_le hlength
  | literal => exact .refl _
  | inBrackets =>
    exact SameBelow.of_le (sameBelow_inBracketsWith (g := ⟨d, limit⟩) hoperation) (Nat.le_succ n)
  | operation => exact hoperation
  | operand =>
    rw [call, call, Grammar.operand, Grammar.operand, operandWith_limit d limit limit']
    exact (sameBelow_operandWith hoperation).of_le (Nat.le_succ n)
  | sequenceFrom first separator => exact hsequence first separator
  | sequence =>
    refine .bind hoperation hprogress.weaken fun first => ?_
    split_ifs
    · exact .refl _
    refine .bind_right (.look _) fun spaced => .bind_right (.look _) fun l => ?_
    dsimp only
    cases l.toSeparator d with
    | some separator =>
      exact .bind_right (.move onward_skipWord) fun _ => hsequence first separator
    | none =>
      dsimp only
      split_ifs
      · exact .refl _
      · exact hsequence first .space
      · exact .refl _

end Limits

/-- An operation below the limit is a run of operands one level deeper, in which the nested
operations are operations again. -/
theorem operation_eq {s : ReadState} (hs : s.cursor.terminal.text = []) :
    g.operation s =
      if s.depth < g.maxDepth then nested (g.runWith g.operation) s else g.refuse s := by
  split_ifs with hdepth
  · obtain ⟨levels, hlevels⟩ : ∃ levels, g.maxDepth - s.depth = levels + 1 :=
      ⟨g.maxDepth - s.depth - 1, by omega⟩
    -- one level deeper, the levels that are left are those up to the limit
    have hinner : SameBelow s.cursor.ahead.length (s.depth + 1) (g.operationWithin levels)
        g.operation := by
      intro t _ _ ht
      show g.operationWithin levels t = g.operationWithin (g.maxDepth - t.depth) t
      rw [show g.maxDepth - t.depth = levels by omega]
    show g.operationWithin (g.maxDepth - s.depth) s = _
    rw [hlevels, operationWithin]
    exact SameBelow.nested (sameBelow_runWith (progresses_operationWithin levels) hinner) s hs
      (Nat.lt_succ_self _) rfl
  · show g.operationWithin (g.maxDepth - s.depth) s = _
    rw [Nat.sub_eq_zero_of_le (by omega), operationWithin]

end Grammar

end FlatExpr
