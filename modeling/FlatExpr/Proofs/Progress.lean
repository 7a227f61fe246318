import FlatExpr.Proofs.Contracts

/-!
# Progress

A rule never leaves the cursor before the place where it started, and a rule that succeeds has
passed at least one lexeme other than white space. This holds over every list of lexemes, also over
one that no source has: with empty lexemes, or with several lexemes of white space in a row. All
that is used of a cursor is that nothing is seen beyond its ends.

Two steps of the grammar go against it. A term that starts with a prefix operator is read as an
operation from the same place, so that the progress is that of the operation; and a sequence by
white space steps back before the white space after a term, which costs nothing since white space is
not counted (`Cursor.Onward.backSpace`). What a rule does is put together from what its steps do
(`ReadState.Advances.bind`), by induction on the rounds of the loops and on the levels of nesting.
-/

namespace FlatExpr

/-- The text is neither empty nor white space. -/
def Text.IsSolid (t : Text) : Prop := t ≠ [] ∧ Text.isBlank t = false

theorem Text.IsWord.isSolid {t : Text} (h : Text.IsWord t) : t.IsSolid :=
  ⟨h.1, Lexeme.isBlank_of_word h⟩

theorem Quote.isSolid_symbol (q : Quote) : Text.IsSolid q.symbol := by
  cases q <;> exact ⟨by decide, by decide⟩

theorem PrefixOp.isSolid_symbol (op : PrefixOp) : Text.IsSolid op.symbol := by
  cases op <;> exact ⟨by decide, by decide⟩

theorem Bracket.isSolid_opening (b : Bracket) : Text.IsSolid b.opening := by
  cases b <;> exact ⟨by decide, by decide⟩

/-! ## Moves forward -/

namespace Cursor

variable {c c' c'' : Cursor}

/-- The cursor `c'` is at the place of `c` or after it, over the same lexemes. -/
structure Onward (c c' : Cursor) : Prop where
  /-- The lexemes are the same, and none but white space was put ahead again. -/
  keeps : c.Keeps c'
  /-- The place is not before the other. -/
  position : c.position ≤ c'.position

namespace Onward

theorem refl (c : Cursor) : c.Onward c := ⟨.refl c, Nat.le_refl _⟩

theorem trans (h : c.Onward c') (h' : c'.Onward c'') : c.Onward c'' :=
  ⟨h.keeps.trans h'.keeps, h.position.trans h'.position⟩

/-- The lexemes ahead and behind are as many as before. -/
theorem size_eq (h : c.Onward c') :
    c'.position + c'.ahead.length = c.position + c.ahead.length := by
  have hlength := congrArg List.length h.keeps.lexemes
  simpa [Cursor.lexemes, Cursor.position] using hlength

theorem length_le (h : c.Onward c') : c'.ahead.length ≤ c.ahead.length := by
  have hsize := h.size_eq
  have hposition := h.position
  omega

/-- Where fewer words are ahead, the cursor has moved. -/
theorem position_lt (h : c.Onward c') (hload : c'.load < c.load) : c.position < c'.position := by
  refine lt_of_le_of_ne h.position ?_
  intro heq
  -- from the same place the same lexemes are ahead
  have hlength : c'.behind.reverse.length = c.behind.reverse.length := by
    simpa [Cursor.position] using heq.symm
  have hahead : c'.ahead = c.ahead := (List.append_inj h.keeps.lexemes hlength).2
  unfold load at hload
  rw [hahead] at hload
  omega

theorem length_lt (h : c.Onward c') (hload : c'.load < c.load) :
    c'.ahead.length < c.ahead.length := by
  have hsize := h.size_eq
  have hposition := h.position_lt hload
  omega

/-- A step back over white space does not lose what was gained. -/
theorem backSpace (h : c.Onward c') (hload : c'.load < c.load) : c.Onward c'.backSpace := by
  refine ⟨h.keeps.trans (keeps_backSpace c'), ?_⟩
  -- one lexeme is stepped back over at most, and one was passed at least
  have hposition := h.position_lt hload
  have hback : c'.position ≤ c'.backSpace.position + 1 := by
    unfold Cursor.backSpace back Cursor.position
    split_ifs
    · split <;> simp_all
    · omega
  omega

end Onward

theorem onward_skip (c : Cursor) : c.Onward c.skip := by
  refine ⟨keeps_skip c, ?_⟩
  unfold skip position
  split <;> simp

theorem onward_skipSpace (c : Cursor) : c.Onward c.skipSpace := by
  unfold skipSpace
  split_ifs
  · exact onward_skip c
  · exact .refl c

theorem onward_skipWord (c : Cursor) : c.Onward c.skipWord :=
  (onward_skipSpace c).trans (onward_skip _)

/-- What is neither empty nor white space is a lexeme, and counts when it is passed. -/
theorem load_skip_lt (hc : c.terminal.text = []) (h : Text.IsSolid c.peek.text) :
    c.skip.load < c.load := by
  cases hahead : c.ahead with
  | nil =>
    have hpeek : c.peek = c.terminal := by unfold peek; rw [hahead]
    rw [hpeek, hc] at h
    exact absurd rfl h.1
  | cons l ls =>
    rw [peek_of_ahead hahead] at h
    have hword : l.isWhitespace = false := h.2
    rw [skip_of_ahead hahead]
    simp [load, hahead, hword]

theorem load_skipWord_lt (hc : c.terminal.text = []) (h : Text.IsSolid c.peekWord.text) :
    c.skipWord.load < c.load := by
  have hspace := (onward_skipSpace c).keeps
  have hskip : c.skipWord.load < c.skipSpace.load :=
    load_skip_lt (by rw [hspace.terminal, hc]) h
  exact lt_of_lt_of_le hskip hspace.load

end Cursor

/-! ## Steps forward -/

/-- What a run from `s` came to: the cursor is not before the place where it was, and if the run
succeeded, it left the levels of nesting it entered and, where that is asked for, passed a word. -/
structure ReadState.Advances {α : Type} (passes : Bool) (s : ReadState)
    (x : Except ParseError α × ReadState) : Prop where
  /-- The cursor did not move back. -/
  onward : s.cursor.Onward x.2.cursor
  /-- After a success the nesting is as before. -/
  depth : ∀ a, x.1 = .ok a → x.2.depth = s.depth
  /-- After a success there are fewer words ahead. -/
  load : passes = true → ∀ a, x.1 = .ok a → x.2.cursor.load < s.cursor.load

namespace ReadState.Advances

variable {α β : Type} {p : Bool} {s : ReadState} {x : Except ParseError α × ReadState}

/-- A failure is asked for nothing but that the cursor did not move back. -/
theorem of_error {t : ReadState} {e : ParseError} (h : s.cursor.Onward t.cursor) :
    s.Advances p ((.error e, t) : Except ParseError α × ReadState) :=
  ⟨h, nofun, fun _ => nofun⟩

theorem of_ok {t : ReadState} {a : α} (h : s.cursor.Onward t.cursor) (hdepth : t.depth = s.depth) :
    s.Advances false ((.ok a, t) : Except ParseError α × ReadState) :=
  ⟨h, fun _ _ => hdepth, nofun⟩

/-- A run that passes a word may be asked for less. -/
theorem weaken (h : s.Advances true x) : s.Advances p x := ⟨h.onward, h.depth, fun _ => h.load rfl⟩

/-- What was passed before a run counts for it. -/
theorem since {c : Cursor} (hc : s.cursor.Onward c)
    (h : ReadState.Advances p { s with cursor := c } x) : s.Advances p x where
  onward := hc.trans h.onward
  depth := h.depth
  load hp a ha := lt_of_lt_of_le (h.load hp a ha) hc.keeps.load

/-- Where a word was passed before a run, the run need not pass one. -/
theorem since_lt {c : Cursor} (hc : s.cursor.Onward c) (hload : c.load < s.cursor.load)
    (h : ReadState.Advances false { s with cursor := c } x) : s.Advances p x where
  onward := hc.trans h.onward
  depth := h.depth
  load _ _ _ := lt_of_le_of_lt h.onward.keeps.load hload

variable {r : Rule α} {f : α → Rule β}

/-- A run and what follows it. -/
theorem bind (h : s.Advances false (r s)) (hf : ∀ a t, r s = (.ok a, t) → t.Advances p (f a t)) :
    s.Advances p ((r >>= f) s) := by
  rw [Rule.bind_apply]
  rcases hr : r s with ⟨_ | a, t⟩
  · rw [hr] at h
    exact .of_error h.onward
  · rw [hr] at h
    have hrest := hf a t hr
    refine ⟨h.onward.trans hrest.onward, ?_, ?_⟩
    · intro b hb
      rw [hrest.depth b hb, h.depth a rfl]
    · intro hp b hb
      exact lt_of_lt_of_le (hrest.load hp b hb) h.onward.keeps.load

/-- A run that passes a word, and what follows it. -/
theorem bind_lt (h : s.Advances true (r s))
    (hf : ∀ a t, r s = (.ok a, t) → t.Advances false (f a t)) : s.Advances p ((r >>= f) s) := by
  have hall : s.Advances false ((r >>= f) s) := h.weaken.bind hf
  refine ⟨hall.onward, hall.depth, ?_⟩
  intro _ b hb
  obtain ⟨a, t, hr, hrest⟩ := Rule.bind_eq_ok_iff.1 (Prod.ext hb rfl : (r >>= f) s = (.ok b, _))
  have honward := (hf a t hr).onward
  have hload := h.load rfl a (by rw [hr])
  rw [hrest] at honward
  rw [hr] at hload
  exact lt_of_le_of_lt honward.keeps.load hload

end ReadState.Advances

namespace Rule

variable {α β : Type} {p : Bool} {r : Rule α} {f : α → Rule β}

/-- From every cursor that sees nothing beyond its ends, the rule goes on; with `passes`, it passes
a word when it succeeds. -/
def Progresses (passes : Bool) (r : Rule α) : Prop :=
  ∀ s : ReadState, s.cursor.terminal.text = [] → s.Advances passes (r s)

namespace Progresses

theorem pure (a : α) : Progresses false (Pure.pure a : Rule α) :=
  fun s _ => .of_ok (.refl s.cursor) rfl

theorem fail (e : ParseError) : Progresses p (Rule.fail e : Rule α) :=
  fun s _ => .of_error (.refl s.cursor)

theorem look (f : Cursor → α) : Progresses false (Rule.look f) :=
  fun s _ => .of_ok (.refl s.cursor) rfl

theorem move {f : Cursor → Cursor} (h : ∀ c : Cursor, c.Onward (f c)) :
    Progresses false (Rule.move f) :=
  fun s _ => .of_ok (h s.cursor) rfl

theorem next : Progresses false Rule.next :=
  fun s _ => .of_ok (Cursor.onward_skipWord s.cursor) rfl

theorem weaken (h : Progresses true r) : Progresses p r := fun s hs => (h s hs).weaken

/-- After a run the cursor still sees nothing beyond its ends. -/
theorem terminal_eq (h : Progresses p r) {s t : ReadState} {x : Except ParseError α}
    (hr : r s = (x, t)) (hs : s.cursor.terminal.text = []) : t.cursor.terminal.text = [] := by
  have honward := (h s hs).onward
  rw [hr] at honward
  rw [honward.keeps.terminal, hs]

theorem bind (h : Progresses false r) (hf : ∀ a, Progresses p (f a)) : Progresses p (r >>= f) :=
  fun s hs => (h s hs).bind fun a t hr => hf a t (h.terminal_eq hr hs)

theorem bind_lt (h : Progresses true r) (hf : ∀ a, Progresses false (f a)) :
    Progresses p (r >>= f) :=
  fun s hs => (h s hs).bind_lt fun a t hr => hf a t (h.terminal_eq hr hs)

theorem nested (h : Progresses p r) : Progresses p (Rule.nested r) := by
  intro s hs
  have hr := h { s with depth := s.depth + 1 } hs
  refine ⟨hr.onward, ?_, hr.load⟩
  intro a ha
  show (r { s with depth := s.depth + 1 }).2.depth - 1 = s.depth
  rw [hr.depth a ha]
  rfl

end Progresses

end Rule

/-! ## The rules of the grammar -/

namespace Grammar

open Rule Cursor

variable {g : Grammar} {operation operand : Rule Expr}

/-- Gathering passes the lexemes one by one. -/
theorem progresses_textUpTo (closes : Lexeme → Bool) : Progresses false (textUpTo closes) := by
  intro s hs
  refine .of_ok ⟨(follows_textUpTo closes s).keeps, ?_⟩ rfl
  obtain ⟨passed, -, hbehind⟩ := gather_lexemes closes .empty s.cursor.behind s.cursor.ahead
  simp only [position]
  rw [hbehind, List.length_append]
  omega

/-- A literal passes the mark that opens it. -/
theorem progresses_literal : Progresses true g.literal := by
  intro s hs
  have hnext := onward_skipWord s.cursor
  have hs' : s.cursor.skipWord.terminal.text = [] := by rw [hnext.keeps.terminal, hs]
  rw [literal, next_bind]
  cases hq : s.cursor.peekWord.toQuote g.dialect with
  | none => exact .since hnext (Progresses.fail _ _ hs')
  | some q =>
    have hsolid : Text.IsSolid s.cursor.peekWord.text := by
      rw [((Allowed.spelled?_eq_some_iff _ _ _).1 hq).1]
      exact q.isSolid_symbol
    refine .since_lt hnext (load_skipWord_lt hs hsolid)
      (Progresses.bind (progresses_textUpTo _) (fun content => ?_) _ hs')
    cases content with
    | none => exact .fail _
    | some value => exact .bind (.move onward_skipSpace) fun _ => .pure _

theorem progresses_inBracketsWith (h : Progresses true operation) :
    Progresses true (g.inBracketsWith operation) := by
  refine .bind .next fun opened => ?_
  cases g.opens? opened with
  | none => exact .fail _
  | some bracket =>
    refine .bind_lt h fun inner => .bind .next fun closed => ?_
    cases g.closes? closed with
    | none => exact .fail _
    | some other =>
      refine .bind (.move onward_skipSpace) fun _ => ?_
      split_ifs
      · exact .pure _
      · exact .fail _

/-- A word that was seen is passed. -/
theorem advances_skip {s : ReadState} (hs : s.cursor.terminal.text = [])
    (h : Text.IsWord s.cursor.peek.text) (e : Expr) :
    s.Advances true ((do move fun c => c.skip.skipSpace; return e : Rule Expr) s) := by
  have hskip := onward_skip s.cursor
  rw [move_bind]
  exact .since_lt (hskip.trans (onward_skipSpace _))
    (lt_of_le_of_lt (onward_skipSpace _).keeps.load (load_skip_lt hs h.isSolid))
    (Progresses.pure _ _ (by rw [(onward_skipSpace _).keeps.terminal, hskip.keeps.terminal, hs]))

theorem progresses_termWith (h : Progresses true operation) :
    Progresses true (g.termWith operation) := by
  intro s hs
  have hspace := onward_skipSpace s.cursor
  have hs' : s.cursor.skipSpace.terminal.text = [] := by rw [hspace.keeps.terminal, hs]
  rw [termWith, move_bind, look_bind]
  refine .since hspace ?_
  cases hcategory : s.cursor.skipSpace.peek.classify g.dialect with
  | error e => exact Progresses.fail _ _ hs'
  | ok category =>
  cases category with
  | identifier name =>
    obtain ⟨rfl, hshape, -⟩ := (Lexeme.classify_eq_identifier_iff name).1 hcategory
    exact advances_skip hs' (Lexeme.isWord_of_isIdentifierText hshape) _
  | numeric value =>
    obtain ⟨rfl, hshape, -⟩ := (Lexeme.classify_eq_numeric_iff value).1 hcategory
    exact advances_skip hs' (Lexeme.isWord_of_isNumericText hshape) _
  | prefixOp op =>
    -- the operator is still ahead, for the operation to pass
    exact h _ hs'
  | quote q => exact progresses_literal _ hs'
  | bracket b opens =>
    cases opens with
    | true => exact progresses_inBracketsWith h _ hs'
    | false => exact Progresses.fail _ _ hs'
  | _ => exact Progresses.fail _ _ hs'

theorem progresses_operandWith (h : Progresses true operation) :
    Progresses true (g.operandWith operation) := by
  refine .bind (.move onward_skipSpace) fun _ => .bind (.look _) fun before =>
    .bind (.move fun c => ?_) fun _ => .bind_lt (progresses_termWith h) fun term =>
    .bind (.move onward_skipSpace) fun _ => .bind (.look _) fun after =>
    .bind (.move fun c => ?_) fun _ => .pure _
  · split_ifs
    · exact onward_skipWord c
    · exact .refl c
  · split_ifs
    · exact (onward_skipWord c).trans (onward_skipSpace _)
    · exact onward_skipSpace c

theorem progresses_linkWith (h : Progresses true operand) :
    Progresses true (g.linkWith operand) :=
  .bind (.move onward_skipWord) fun _ => .bind_lt h fun _ => .bind (.move onward_skipSpace)
    fun _ => .bind (.look _) fun _ => .pure _

/-- By induction on the rounds. -/
theorem progresses_linksWith (h : Progresses true operand) (lexemes : Nat) (op : InfixOp) :
    Progresses false (g.linksWith operand lexemes op) := by
  induction lexemes generalizing op with
  | zero => exact .pure _
  | succ lexemes ih =>
    refine .bind (progresses_linkWith h).weaken fun link => ?_
    obtain ⟨right, following⟩ := link
    cases following with
    | none => exact .pure _
    | some op' => exact .bind (ih op') fun _ => .pure _

/-- The lexeme that may continue a sequence is seen from the cursor or from one step back. -/
theorem separatorLexeme_eq_ok (separator : Separator) (s : ReadState) :
    ∃ l c, separatorLexeme separator s = (.ok l, { s with cursor := c }) ∧
      (c = s.cursor ∨ c = s.cursor.backSpace) := by
  unfold separatorLexeme
  split_ifs
  · exact ⟨_, _, rfl, .inr rfl⟩
  · exact ⟨_, _, rfl, .inl rfl⟩

/-- A step back before white space is taken only after the term was passed. -/
theorem progresses_itemWith (h : Progresses true operand) (separator : Separator) :
    Progresses true (g.itemWith operand separator) := by
  intro s hs
  have hoperand := h s hs
  rcases hrun : operand s with ⟨_ | term, t⟩
  · rw [hrun] at hoperand
    rw [itemWith, bind_apply, hrun]
    exact .of_error hoperand.onward
  rw [hrun] at hoperand
  have hload := hoperand.load rfl term rfl
  obtain ⟨l, c, hlexeme, hc⟩ := separatorLexeme_eq_ok separator t
  -- wherever the lexeme is seen from, the term was passed
  have honward : s.cursor.Onward c ∧ c.load < s.cursor.load := by
    rcases hc with rfl | rfl
    · exact ⟨hoperand.onward, hload⟩
    · exact ⟨hoperand.onward.backSpace hload,
        lt_of_le_of_lt (keeps_backSpace t.cursor).load hload⟩
  have hstate : { t with cursor := c } = { s with cursor := c } := by rw [hoperand.depth term rfl]
  rw [itemWith, bind_of_ok hrun, bind_of_ok hlexeme, hstate]
  refine .since_lt honward.1 honward.2 ?_
  have hs' : c.terminal.text = [] := by rw [honward.1.keeps.terminal, hs]
  cases l.toSeparator g.dialect with
  | none => exact Progresses.pure _ _ hs'
  | some found =>
    by_cases heq : found = separator
    · simp only [heq, if_true]
      refine Progresses.bind (.move fun c => ?_) (fun _ => .bind (.look _) fun _ => .pure _) _ hs'
      split_ifs
      · exact onward_skipSpace c
      · exact onward_skipWord c
    · simp only [heq, if_false]
      exact Progresses.fail _ _ hs'

/-- By induction on the rounds; the first of them, if there is one, passes a word. -/
theorem progresses_itemsWith (h : Progresses true operand) (separator : Separator)
    (rounds : Nat) : Progresses (decide (0 < rounds)) (g.itemsWith operand separator rounds) := by
  induction rounds with
  | zero => exact .pure _
  | succ rounds ih =>
    have hothers : Progresses false (g.itemsWith operand separator rounds) := by
      cases rounds with
      | zero => exact ih
      | succ rounds => exact Progresses.weaken ih
    refine .bind_lt (progresses_itemWith h separator) fun item => ?_
    obtain ⟨term, more⟩ := item
    dsimp only
    split_ifs
    · exact .bind hothers fun _ => .pure _
    · exact .pure _

theorem progresses_sequenceFromWith (h : Progresses true operation) (first : Expr)
    (separator : Separator) : Progresses true (g.sequenceFromWith operation first separator) :=
  .bind (.look _) fun lexemes =>
    .bind_lt (progresses_itemsWith (progresses_operandWith h) separator (lexemes + 1))
      fun _ => .pure _

theorem progresses_runWith (h : Progresses true operation) :
    Progresses true (g.runWith operation) := by
  have hoperand : Progresses true (g.operandWith operation) := progresses_operandWith h
  refine .bind_lt hoperand fun left => .bind (.look _) fun l => ?_
  cases l.toInfixOp g.dialect with
  | some op =>
    exact .bind (.look _) fun _ => .bind (progresses_linksWith hoperand _ op) fun _ => .pure _
  | none =>
    cases l.toSeparator g.dialect with
    | none => exact .pure _
    | some separator =>
      dsimp only
      split_ifs
      · exact .pure _
      · exact .bind (.move onward_skipWord) fun _ =>
          (progresses_sequenceFromWith h left separator).weaken

/-- By induction on the levels that are left. -/
theorem progresses_operationWithin (levels : Nat) :
    Progresses true (g.operationWithin levels) := by
  induction levels with
  | zero => exact fun s _ => .of_error (.refl s.cursor)
  | succ levels ih => exact (progresses_runWith ih).nested

theorem progresses_operation : Progresses true g.operation :=
  fun s hs => progresses_operationWithin (g.maxDepth - s.depth) s hs

/-- Whatever rule is called, it goes on, and passes a word if it succeeds. -/
theorem progresses_call (m : Method) : Progresses true (g.call m) := by
  have hoperation : Progresses true g.operation := progresses_operation
  cases m with
  | term => exact progresses_termWith hoperation
  | literal => exact progresses_literal
  | inBrackets => exact progresses_inBracketsWith hoperation
  | operation => exact hoperation
  | operand => exact progresses_operandWith hoperation
  | sequenceFrom first separator => exact progresses_sequenceFromWith hoperation first separator
  | sequence =>
    refine .bind_lt hoperation fun first => ?_
    split_ifs
    · exact .pure _
    refine .bind (.look _) fun spaced => .bind (.look _) fun l => ?_
    cases l.toSeparator g.dialect with
    | some separator =>
      exact .bind (.move onward_skipWord) fun _ =>
        (progresses_sequenceFromWith hoperation first separator).weaken
    | none =>
      dsimp only
      split_ifs
      · exact .pure _
      · exact (progresses_sequenceFromWith hoperation first .space).weaken
      · exact .fail _

/-- A list of phrases has no more of them than there are words ahead. -/
theorem length_many_le {rule : Rule Expr} (h : Progresses true rule) {n : Nat} {s s' : ReadState}
    {es : List Expr} (hs : s.cursor.terminal.text = []) (hrun : many rule n s = (.ok es, s')) :
    es.length ≤ s.cursor.load := by
  induction n generalizing s s' es with
  | zero =>
    obtain ⟨rfl, -⟩ := pure_eq_ok_iff.1 hrun
    exact Nat.zero_le _
  | succ n ih =>
    rw [many, look_bind] at hrun
    split_ifs at hrun
    · obtain ⟨rfl, -⟩ := pure_eq_ok_iff.1 hrun
      exact Nat.zero_le _
    · obtain ⟨e, t, hrule, hrest⟩ := bind_eq_ok_iff.1 hrun
      obtain ⟨others, t', hothers, hend⟩ := bind_eq_ok_iff.1 hrest
      obtain ⟨rfl, -⟩ := pure_eq_ok_iff.1 hend
      -- the phrase was passed, so that there is a word less for the others
      have hload : t.cursor.load < s.cursor.load := by
        have hpassed := (h s hs).load rfl e (by rw [hrule])
        rwa [hrule] at hpassed
      have hlength := ih (h.terminal_eq hrule hs) hothers
      rw [List.length_cons]
      omega

end Grammar

end FlatExpr
