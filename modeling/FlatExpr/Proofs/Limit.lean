import FlatExpr.Proofs.Levels

/-!
# The nesting limit

The limit on the nesting of operations only cuts. Run under two limits from the same state, a rule
either gives the same answer and reaches the same state, or it is refused under the smaller limit
(`Rule.UpTo`). It is refused only where enough lexemes are ahead: before an operation is nested in
another a bracket or a prefix operator is passed, so that a reading of `n` levels is refused only
with `n` lexemes other than white space ahead (`agrees_operationWithin`). A reading that is not
refused fails because of a lexeme or not at all.

The relation is kept by sequencing (`Agrees.bind`), so that each rule of the grammar is compared by
comparing its steps in their order.
-/

namespace FlatExpr

/-! ## What moves keep -/

namespace Cursor

variable {c c' c'' : Cursor}

/-- The number of lexemes ahead other than white space. -/
def load (c : Cursor) : Nat := c.ahead.countP fun l => !l.isWhitespace

/-- The cursor `c'` is over the same lexemes as `c`, and there is not more ahead of it than white
space was added. -/
structure Keeps (c c' : Cursor) : Prop where
  /-- The lexemes are the same. -/
  lexemes : c'.lexemes = c.lexemes
  /-- What is seen beyond the ends is the same. -/
  terminal : c'.terminal = c.terminal
  /-- No lexeme but white space was put ahead again. -/
  load : c'.load ≤ c.load

namespace Keeps

theorem refl (c : Cursor) : c.Keeps c := ⟨rfl, rfl, Nat.le_refl _⟩

theorem trans (h : c.Keeps c') (h' : c'.Keeps c'') : c.Keeps c'' where
  lexemes := by rw [h'.lexemes, h.lexemes]
  terminal := by rw [h'.terminal, h.terminal]
  load := h'.load.trans h.load

theorem tidy (h : c.Keeps c') (hc : c.Tidy) : c'.Tidy where
  lexemes := by rw [h.lexemes]; exact hc.lexemes
  terminal := by rw [h.terminal]; exact hc.terminal

end Keeps

theorem keeps_skip (c : Cursor) : c.Keeps c.skip := by
  refine ⟨lexemes_skip c, ?_, ?_⟩
  · unfold skip
    split <;> rfl
  · cases hahead : c.ahead with
    | nil => simp [skip, hahead]
    | cons l ls =>
      rw [skip_of_ahead hahead]
      simp only [load, hahead]
      exact (List.sublist_cons_self l ls).countP_le

theorem keeps_skipSpace (c : Cursor) : c.Keeps c.skipSpace := by
  unfold skipSpace
  split
  · exact keeps_skip c
  · exact .refl c

theorem keeps_skipWord (c : Cursor) : c.Keeps c.skipWord :=
  (keeps_skipSpace c).trans (keeps_skip _)

theorem keeps_backSpace (c : Cursor) : c.Keeps c.backSpace := by
  refine ⟨lexemes_backSpace c, ?_, ?_⟩
  · unfold backSpace back
    split
    · split <;> rfl
    · rfl
  · -- only white space is put ahead again, and it does not count
    cases hbehind : c.behind with
    | nil => simp [backSpace, back, hbehind]
    | cons l ls =>
      have hlast : c.last = l := by unfold last; rw [hbehind]
      unfold backSpace back
      rw [hbehind, hlast]
      cases hspace : l.isWhitespace <;> simp [load, hspace]

/-- Passing a word leaves less ahead. -/
theorem Tidy.load_skipWord_lt (hc : c.Tidy) (h : c.peekWord.text ≠ []) :
    c.skipWord.load < c.load := by
  have hspace := (keeps_skipSpace c).load
  cases hahead : c.skipSpace.ahead with
  | nil =>
    -- what is seen beyond the end is empty, and no word
    have hpeek : c.peekWord = c.skipSpace.terminal := by unfold peekWord peek; rw [hahead]
    rw [hpeek, hc.skipSpace.terminal] at h
    exact absurd rfl h
  | cons l ls =>
    have hword := hc.settled_skipSpace
    rw [peek_of_ahead hahead] at hword
    have hlt : c.skipWord.load < c.skipSpace.load := by
      unfold skipWord
      rw [skip_of_ahead hahead]
      simp [load, hahead, hword]
    omega

theorem load_le_length (c : Cursor) : c.load ≤ c.ahead.length := List.countP_le_length

end Cursor

/-- The state `s'` has the depth of `s`, and its cursor keeps the lexemes. -/
structure ReadState.Follows (s s' : ReadState) : Prop where
  /-- Every level that was entered has been left. -/
  depth : s'.depth = s.depth
  /-- The cursor moved over the same lexemes. -/
  keeps : s.cursor.Keeps s'.cursor

namespace ReadState.Follows

variable {s s' s'' : ReadState}

theorem refl (s : ReadState) : s.Follows s := ⟨rfl, .refl _⟩

theorem trans (h : s.Follows s') (h' : s'.Follows s'') : s.Follows s'' where
  depth := by rw [h'.depth, h.depth]
  keeps := h.keeps.trans h'.keeps

end ReadState.Follows

namespace ParseError

variable {e : ParseError}

/-- The error is about a lexeme that was read, neither about the limit nor about what is left. -/
def AtLexeme (e : ParseError) : Prop := e.kind = .lexical ∨ e.kind = .structural

theorem AtLexeme.ne_tooDeep (h : e.AtLexeme) (depth limit : Nat) : e ≠ .tooDeep depth limit := by
  rintro rfl
  exact h.elim nofun nofun

theorem AtLexeme.ne_unresolved (h : e.AtLexeme) (remainder : Text) (offset : Nat) :
    e ≠ .unresolved remainder offset := by
  rintro rfl
  exact h.elim nofun nofun

end ParseError

/-! ## Answers under two limits -/

namespace Rule

variable {α β : Type} {limit m n k : Nat} {s t : ReadState}

/-- An answer under the limit `limit` beside one under a larger limit, both from runs that are
counted from the state `s`: it is a refusal, and there are `n` lexemes or more ahead of `s`, or the
two are the same. -/
inductive UpTo (limit n : Nat) (s : ReadState) :
    Except ParseError α × ReadState → Except ParseError α × ReadState → Prop where
  | refused {t : ReadState} {y : Except ParseError α × ReadState} (deep : n ≤ s.cursor.load) :
      UpTo limit n s (.error (.tooDeep (limit + 1) limit), t) y
  | failed {e : ParseError} {t : ReadState} (h : e.AtLexeme) :
      UpTo limit n s (.error e, t) (.error e, t)
  | passed {a : α} {t : ReadState} (h : s.Follows t) : UpTo limit n s (.ok a, t) (.ok a, t)

/-- A run may be counted from an earlier state. -/
theorem UpTo.since {x y : Except ParseError α × ReadState} (h : UpTo limit m t x y)
    (hst : s.Follows t) (hdeep : m ≤ t.cursor.load → n ≤ s.cursor.load) : UpTo limit n s x y := by
  cases h with
  | refused deep => exact .refused (hdeep deep)
  | failed h => exact .failed h
  | passed h => exact .passed (hst.trans h)

/-- What follows an answer is compared from there. -/
theorem UpTo.bind {r r' : Rule α} {f f' : α → Rule β} (h : UpTo limit n s (r t) (r' t))
    (hf : ∀ a t', s.Follows t' → UpTo limit n s (f a t') (f' a t')) :
    UpTo limit n s ((r >>= f) t) ((r' >>= f') t) := by
  rw [bind_apply, bind_apply]
  generalize r t = x, r' t = y at h
  cases h with
  | refused deep => exact .refused deep
  | failed h => exact .failed h
  | passed h => exact hf _ _ h

theorem move_bind (f : Cursor → Cursor) (r : Unit → Rule α) (s : ReadState) :
    (Rule.move f >>= r) s = r () { s with cursor := f s.cursor } := rfl

theorem look_bind (f : Cursor → β) (r : β → Rule α) (s : ReadState) :
    (Rule.look f >>= r) s = r (f s.cursor) s := rfl

theorem next_bind (r : Lexeme → Rule α) (s : ReadState) :
    (Rule.next >>= r) s = r s.cursor.peekWord { s with cursor := s.cursor.skipWord } := rfl

/-- From every place in a source at the depth `k`, the rules give the same answer unless the first
is refused, which happens only with `n` lexemes or more ahead. -/
def Agrees (limit n k : Nat) (r r' : Rule α) : Prop :=
  ∀ s, s.cursor.Tidy → s.depth = k → UpTo limit n s (r s) (r' s)

namespace Agrees

theorem pure (a : α) : Agrees limit n k (Pure.pure a : Rule α) (Pure.pure a) :=
  fun s _ _ => .passed (.refl s)

theorem fail {e : ParseError} (h : e.AtLexeme) :
    Agrees limit n k (Rule.fail e : Rule α) (Rule.fail e) :=
  fun _ _ _ => .failed h

theorem look (f : Cursor → α) : Agrees limit n k (Rule.look f) (Rule.look f) :=
  fun s _ _ => .passed (.refl s)

theorem move {f : Cursor → Cursor} (h : ∀ c : Cursor, c.Keeps (f c)) :
    Agrees limit n k (Rule.move f) (Rule.move f) :=
  fun s _ _ => .passed ⟨rfl, h s.cursor⟩

theorem next : Agrees limit n k Rule.next Rule.next :=
  fun s _ _ => .passed ⟨rfl, Cursor.keeps_skipWord s.cursor⟩

theorem bind {r r' : Rule α} {f f' : α → Rule β} (h : Agrees limit n k r r')
    (hf : ∀ a, Agrees limit n k (f a) (f' a)) : Agrees limit n k (r >>= f) (r' >>= f') := by
  intro s hs hk
  refine (h s hs hk).bind ?_
  intro a t hst
  refine (hf a t (hst.keeps.tidy hs) (by rw [hst.depth, hk])).since hst ?_
  exact fun hdeep => hdeep.trans hst.keeps.load

/-- What is refused only with more lexemes ahead is refused only with fewer. -/
theorem of_le {r r' : Rule α} (h : Agrees limit n k r r') (hmn : m ≤ n) :
    Agrees limit m k r r' :=
  fun s hs hk => (h s hs hk).since (.refl s) fun hdeep => hmn.trans hdeep

/-- A rule one level deeper is compared at that level. -/
theorem nested {r r' : Rule α} (h : Agrees limit n (k + 1) r r') :
    Agrees limit n k (Rule.nested r) (Rule.nested r') := by
  intro s hs hk
  have hinner := h { s with depth := s.depth + 1 } hs (by rw [hk])
  unfold Rule.nested
  generalize r { s with depth := s.depth + 1 } = x,
    r' { s with depth := s.depth + 1 } = y at hinner
  cases hinner with
  | refused deep => exact .refused deep
  | failed h => exact .failed h
  | @passed a t h =>
    have hdepth : t.depth = s.depth + 1 := h.depth
    exact .passed ⟨by show t.depth - 1 = s.depth; omega, h.keeps⟩

end Agrees

end Rule

/-! ## The rules of the grammar -/

namespace Grammar

open Rule Cursor

variable {g : Grammar} {limit levels n k : Nat}

/-! ### Errors -/

theorem atLexeme_unexpected (g : Grammar) (expected : Expected) (l : Lexeme) :
    (g.unexpected expected l).AtLexeme := by
  unfold unexpected
  split
  · exact .inl rfl
  · exact .inr rfl

theorem atLexeme_of_require {allowed : Allowed Text} {t : Text} {category : Expected}
    {offset : Nat} {e : ParseError}
    (h : (allowed.require t category offset).map some = .error e) : e.AtLexeme := by
  unfold Allowed.require at h
  split_ifs at h
  · cases h
  · cases h
    exact .inl rfl

/-- A lexeme without a category is a word that the dialect disables. -/
theorem atLexeme_of_classify {d : Dialect} {l : Lexeme} {e : ParseError}
    (h : l.classify d = .error e) : e.AtLexeme := by
  unfold Lexeme.classify at h
  split_ifs at h
  unfold Lexeme.toIdentifier Lexeme.toNumeric at h
  split at h
  · next he =>
    cases h
    split_ifs at he
    exact atLexeme_of_require he
  · cases h
  · split at h
    · next he =>
      cases h
      split_ifs at he
      exact atLexeme_of_require he
    · cases h
    · cases h

/-! ### Literals -/

/-- Gathering passes the lexemes one by one. -/
theorem gather_lexemes (closes : Lexeme → Bool) (run : TextRun) (behind ls : List Lexeme) :
    ∃ passed, ls = passed ++ (gather closes run behind ls).2.2 ∧
      (gather closes run behind ls).2.1 = passed.reverse ++ behind := by
  induction ls generalizing run behind with
  | nil => exact ⟨[], rfl, rfl⟩
  | cons l ls ih =>
    unfold gather
    split_ifs
    · exact ⟨[l], rfl, rfl⟩
    · exact ⟨[l], rfl, rfl⟩
    · obtain ⟨passed, hls, hbehind⟩ := ih (run.push l) (l :: behind)
      refine ⟨l :: passed, by rw [List.cons_append, ← hls], ?_⟩
      rw [hbehind]
      simp

/-- Gathering moves the cursor over the same lexemes. -/
theorem follows_textUpTo (closes : Lexeme → Bool) (s : ReadState) :
    s.Follows (textUpTo closes s).2 := by
  obtain ⟨passed, hahead, hbehind⟩ :=
    gather_lexemes closes .empty s.cursor.behind s.cursor.ahead
  refine ⟨rfl, ?_, rfl, ?_⟩
  · simp only [lexemes, textUpTo]
    rw [hbehind]
    nth_rewrite 2 [hahead]
    simp
  · simp only [load, textUpTo]
    nth_rewrite 2 [hahead]
    exact (List.sublist_append_right _ _).countP_le

theorem agrees_textUpTo (closes : Lexeme → Bool) :
    Agrees limit n k (textUpTo closes) (textUpTo closes) :=
  fun s _ _ => .passed (follows_textUpTo closes s)

theorem agrees_literal : Agrees limit n k g.literal g.literal := by
  refine .bind .next fun opened => ?_
  cases opened.toQuote g.dialect with
  | none => exact .fail (atLexeme_unexpected g _ _)
  | some quote =>
    refine .bind (agrees_textUpTo _) fun content => ?_
    cases content with
    | none => exact .fail (.inr rfl)
    | some value => exact .bind (.move keeps_skipSpace) fun _ => .pure _

/-! ### Terms and operands -/

section Operation

variable {operation operation' : Rule Expr} {s : ReadState}

/-- Brackets pass a lexeme before the operation in them. -/
theorem agrees_inBracketsWith (h : Agrees limit levels k operation operation') :
    Agrees limit (levels + 1) k (g.inBracketsWith operation) (g.inBracketsWith operation') := by
  intro s hs hk
  have hnext : s.Follows { s with cursor := s.cursor.skipWord } := ⟨rfl, keeps_skipWord _⟩
  simp only [inBracketsWith, next_bind]
  cases hopens : g.opens? s.cursor.peekWord with
  | none => exact .failed (atLexeme_unexpected g _ _)
  | some bracket =>
    -- the bracket is passed, so that there is less ahead of the operation
    obtain ⟨htext, -⟩ := (g.opens?_eq_some_iff _ _).1 hopens
    have hload := hs.load_skipWord_lt (by rw [htext]; exact bracket.opening_ne_nil)
    refine UpTo.since (m := levels) ?_ hnext (fun hdeep => by
      have hdeep : levels ≤ s.cursor.skipWord.load := hdeep
      omega)
    refine Agrees.bind h (fun inner => .bind .next fun closed => ?_) _ (hnext.keeps.tidy hs) hk
    cases g.closes? closed with
    | none => exact .fail (atLexeme_unexpected g _ _)
    | some other =>
      refine .bind (.move keeps_skipSpace) fun _ => ?_
      split_ifs
      · exact .pure _
      · exact .fail (.inr rfl)

/-- A term passes a lexeme before the operation in it, unless it is an operation that starts with a
prefix operator. -/
theorem upTo_termWith (h : Agrees limit levels k operation operation') (hs : s.cursor.Tidy)
    (hk : s.depth = k) (hn : n ≤ levels + 1)
    (hlead : s.cursor.peekWord.toPrefixOp g.dialect ≠ none → n ≤ levels) :
    UpTo limit n s (g.termWith operation s) (g.termWith operation' s) := by
  have hspace : s.Follows { s with cursor := s.cursor.skipSpace } := ⟨rfl, keeps_skipSpace _⟩
  have hspace' := hspace.keeps.load
  have hword : s.Follows { s with cursor := s.cursor.skipWord.skipSpace } :=
    ⟨rfl, (keeps_skipWord _).trans (keeps_skipSpace _)⟩
  have hpeek : s.cursor.skipSpace.peek = s.cursor.peekWord := rfl
  simp only [termWith, move_bind, look_bind, hpeek]
  cases hcategory : s.cursor.peekWord.classify g.dialect with
  | error e => exact .failed (atLexeme_of_classify hcategory)
  | ok category =>
  cases category with
  | identifier name => exact .passed hword
  | numeric value => exact .passed hword
  | prefixOp op =>
    -- the operator is left to the operation, so that nothing is passed before it
    obtain ⟨htext, hallowed⟩ := (Lexeme.classify_eq_prefixOp_iff op).1 hcategory
    have hsome : s.cursor.peekWord.toPrefixOp g.dialect = some op :=
      (Allowed.spelled?_eq_some_iff _ _ _).2 ⟨htext, hallowed⟩
    have hlevels := hlead (by rw [hsome]; exact Option.some_ne_none op)
    refine (h _ (hspace.keeps.tidy hs) hk).since hspace ?_
    intro hdeep
    exact hlevels.trans (hdeep.trans hspace')
  | quote q =>
    refine (agrees_literal (n := n) (k := k) _ (hspace.keeps.tidy hs) hk).since hspace ?_
    exact fun hdeep => hdeep.trans hspace'
  | bracket b opens =>
    cases opens with
    | false => exact .failed (.inr rfl)
    | true =>
      refine (agrees_inBracketsWith h _ (hspace.keeps.tidy hs) hk).since hspace ?_
      intro hdeep
      exact hn.trans (hdeep.trans hspace')
  | _ => exact .failed (atLexeme_unexpected g _ _)

/-- An operand passes a lexeme before the operation in it. -/
theorem agrees_operandWith (h : Agrees limit levels k operation operation') :
    Agrees limit (levels + 1) k (g.operandWith operation) (g.operandWith operation') := by
  intro s hs hk
  have hspace : s.Follows { s with cursor := s.cursor.skipSpace } := ⟨rfl, keeps_skipSpace _⟩
  have hpeek : s.cursor.skipSpace.peek = s.cursor.peekWord := rfl
  simp only [operandWith, move_bind, look_bind, hpeek]
  refine UpTo.bind ?_ ?_
  · cases hbefore : s.cursor.peekWord.toPrefixOp g.dialect with
    | none =>
      have hagain : s.cursor.skipSpace.peekWord = s.cursor.peekWord := by
        unfold peekWord
        rw [skipSpace_of_settled hs.settled_skipSpace]
      refine (upTo_termWith h (hspace.keeps.tidy hs) hk (Nat.le_refl _) ?_).since hspace ?_
      · intro hsome
        exact absurd hbefore (by rw [← hagain]; exact hsome)
      · exact fun hdeep => hdeep.trans hspace.keeps.load
    | some op =>
      -- the prefix operator is passed, so that there is less ahead of the term
      obtain ⟨htext, -⟩ := (Allowed.spelled?_eq_some_iff _ _ _).1 hbefore
      have hskip : s.cursor.skipSpace.skipWord = s.cursor.skipWord := by
        unfold skipWord
        rw [skipSpace_of_settled hs.settled_skipSpace]
      have hword : s.Follows { s with cursor := s.cursor.skipWord } := ⟨rfl, keeps_skipWord _⟩
      have hload := hs.load_skipWord_lt (by rw [htext]; exact OneSpelling.symbol_ne_nil op)
      simp only [Option.isSome_some, if_true, hskip]
      refine (upTo_termWith h (hword.keeps.tidy hs) hk (Nat.le_succ levels)
        fun _ => Nat.le_refl levels).since hword ?_
      intro hdeep
      have hdeep : levels ≤ s.cursor.skipWord.load := hdeep
      omega
  · intro term t hst
    refine .passed (hst.trans ⟨rfl, ?_⟩)
    have hsettle := keeps_skipSpace t.cursor
    split_ifs
    · exact (hsettle.trans (keeps_skipWord _)).trans (keeps_skipSpace _)
    · exact hsettle.trans (keeps_skipSpace _)

end Operation

/-! ### Runs of operands -/

section Runs

variable {operand operand' : Rule Expr} {operation operation' : Rule Expr}

theorem agrees_linksWith (h : Agrees limit n k operand operand') (lexemes : Nat) (op : InfixOp) :
    Agrees limit n k (g.linksWith operand lexemes op) (g.linksWith operand' lexemes op) := by
  induction lexemes generalizing op with
  | zero => exact .pure _
  | succ lexemes ih =>
    have hlink : Agrees limit n k (g.linkWith operand) (g.linkWith operand') :=
      .bind (.move keeps_skipWord) fun _ => .bind h fun right =>
        .bind (.move keeps_skipSpace) fun _ => .bind (.look _) fun following => .pure _
    refine .bind hlink fun link => ?_
    obtain ⟨right, following⟩ := link
    cases following with
    | none => exact .pure _
    | some op' => exact .bind (ih op') fun rest => .pure _

theorem agrees_separatorLexeme (separator : Separator) :
    Agrees limit n k (separatorLexeme separator) (separatorLexeme separator) := by
  unfold separatorLexeme
  split_ifs
  · exact .bind (.move keeps_backSpace) fun _ => .look _
  · exact .look _

theorem agrees_itemWith (h : Agrees limit n k operand operand') (separator : Separator) :
    Agrees limit n k (g.itemWith operand separator) (g.itemWith operand' separator) := by
  refine .bind h fun term => .bind (agrees_separatorLexeme separator) fun l => ?_
  cases l.toSeparator g.dialect with
  | none => exact .pure _
  | some found =>
    by_cases hfound : found = separator
    · simp only [hfound, if_true]
      refine .bind (.move fun c => ?_) fun _ => .bind (.look _) fun ended => .pure _
      split_ifs
      · exact keeps_skipSpace c
      · exact keeps_skipWord c
    · simp only [hfound, if_false]
      exact .fail (.inr rfl)

theorem agrees_itemsWith (h : Agrees limit n k operand operand') (separator : Separator)
    (rounds : Nat) :
    Agrees limit n k (g.itemsWith operand separator rounds)
      (g.itemsWith operand' separator rounds) := by
  induction rounds with
  | zero => exact .pure _
  | succ rounds ih =>
    refine .bind (agrees_itemWith h separator) fun item => ?_
    obtain ⟨term, more⟩ := item
    dsimp only
    split_ifs
    · exact .bind ih fun terms => .pure _
    · exact .pure _

theorem agrees_sequenceFromWith (h : Agrees limit levels k operation operation') (first : Expr)
    (separator : Separator) :
    Agrees limit (levels + 1) k (g.sequenceFromWith operation first separator)
      (g.sequenceFromWith operation' first separator) :=
  .bind (.look _) fun _ =>
    .bind (agrees_itemsWith (agrees_operandWith h) separator _) fun _ => .pure _

theorem agrees_runWith (h : Agrees limit levels k operation operation') :
    Agrees limit (levels + 1) k (g.runWith operation) (g.runWith operation') := by
  refine .bind (agrees_operandWith h) fun left => .bind (.look _) fun l => ?_
  cases l.toInfixOp g.dialect with
  | some op =>
    exact .bind (.look _) fun lexemes =>
      .bind (agrees_linksWith (agrees_operandWith h) _ op) fun rest => .pure _
  | none =>
    cases l.toSeparator g.dialect with
    | none => exact .pure _
    | some separator =>
      dsimp only
      split_ifs
      · exact .pure _
      · exact .bind (.move keeps_skipWord) fun _ => agrees_sequenceFromWith h left separator

end Runs

/-! ### The rules below an operation do not know the limit -/

section Limits

variable (d : Dialect) (limit limit' : Nat)

theorem operandWith_limit :
    (⟨d, limit'⟩ : Grammar).operandWith = (⟨d, limit⟩ : Grammar).operandWith := by
  funext operation
  have hterm : (⟨d, limit'⟩ : Grammar).termWith operation =
      (⟨d, limit⟩ : Grammar).termWith operation := rfl
  have hpostfix : (⟨d, limit'⟩ : Grammar).postfixOp? = (⟨d, limit⟩ : Grammar).postfixOp? := rfl
  simp only [operandWith, hterm, hpostfix]

theorem linksWith_limit (operand : Rule Expr) (lexemes : Nat) (op : InfixOp) :
    (⟨d, limit'⟩ : Grammar).linksWith operand lexemes op =
      (⟨d, limit⟩ : Grammar).linksWith operand lexemes op := by
  induction lexemes generalizing op with
  | zero => rfl
  | succ lexemes ih =>
    simp only [linksWith, ih]
    rfl

theorem itemsWith_limit (operand : Rule Expr) (separator : Separator) (rounds : Nat) :
    (⟨d, limit'⟩ : Grammar).itemsWith operand separator rounds =
      (⟨d, limit⟩ : Grammar).itemsWith operand separator rounds := by
  induction rounds with
  | zero => rfl
  | succ rounds ih =>
    simp only [itemsWith, ih]
    rfl

theorem sequenceFromWith_limit :
    (⟨d, limit'⟩ : Grammar).sequenceFromWith = (⟨d, limit⟩ : Grammar).sequenceFromWith := by
  funext operation first separator
  simp only [sequenceFromWith, itemsWith_limit d limit limit', operandWith_limit d limit limit']

theorem runWith_limit : (⟨d, limit'⟩ : Grammar).runWith = (⟨d, limit⟩ : Grammar).runWith := by
  funext operation
  simp only [runWith, linksWith_limit d limit limit', operandWith_limit d limit limit',
    sequenceFromWith_limit d limit limit']

end Limits

/-! ### Operations, terms and sequences -/

section Entries

variable {d : Dialect} {limit' : Nat}

/-- By induction on the levels, an operation is refused only with as many lexemes ahead as it has
levels, and otherwise more levels do not change its answer. -/
theorem agrees_operationWithin {levels' : Nat} (hk : k + levels = limit)
    (hle : levels ≤ levels') :
    Agrees limit levels k ((⟨d, limit⟩ : Grammar).operationWithin levels)
      ((⟨d, limit'⟩ : Grammar).operationWithin levels') := by
  induction levels generalizing k levels' with
  | zero =>
    -- no level is left, which takes no lexeme
    intro s hs hdepth
    have hlimit : s.depth = limit := by omega
    show UpTo limit 0 s (.error (.tooDeep (s.depth + 1) limit), { s with depth := s.depth + 1 }) _
    rw [hlimit]
    exact .refused (Nat.zero_le _)
  | succ levels ih =>
    obtain ⟨levels', rfl⟩ : ∃ m, levels' = m + 1 := ⟨levels' - 1, by omega⟩
    have hinner : Agrees limit levels (k + 1) ((⟨d, limit⟩ : Grammar).operationWithin levels)
        ((⟨d, limit'⟩ : Grammar).operationWithin levels') := ih (by omega) (by omega)
    rw [operationWithin, operationWithin, runWith_limit d limit limit']
    exact .nested (agrees_runWith hinner)

theorem agrees_operation (hle : limit ≤ limit') :
    Agrees limit limit 0 (⟨d, limit⟩ : Grammar).operation (⟨d, limit'⟩ : Grammar).operation := by
  intro s hs hdepth
  show UpTo limit limit s ((⟨d, limit⟩ : Grammar).operationWithin (limit - s.depth) s)
    ((⟨d, limit'⟩ : Grammar).operationWithin (limit' - s.depth) s)
  rw [hdepth]
  exact agrees_operationWithin (Nat.zero_add limit) hle s hs hdepth

theorem agrees_term (hle : limit ≤ limit') :
    Agrees limit limit 0 (⟨d, limit⟩ : Grammar).term (⟨d, limit'⟩ : Grammar).term :=
  fun _ hs hdepth => upTo_termWith (g := ⟨d, limit⟩) (agrees_operation hle) hs hdepth
    (Nat.le_succ limit) fun _ => Nat.le_refl limit

theorem agrees_sequenceFrom (hle : limit ≤ limit') (first : Expr) (separator : Separator) :
    Agrees limit limit 0 ((⟨d, limit⟩ : Grammar).sequenceFrom first separator)
      ((⟨d, limit'⟩ : Grammar).sequenceFrom first separator) := by
  rw [sequenceFrom, sequenceFrom, sequenceFromWith_limit d limit limit']
  exact (agrees_sequenceFromWith (agrees_operation hle) first separator).of_le (Nat.le_succ limit)

theorem agrees_sequence (hle : limit ≤ limit') :
    Agrees limit limit 0 (⟨d, limit⟩ : Grammar).sequence (⟨d, limit'⟩ : Grammar).sequence := by
  refine .bind (agrees_operation hle) fun first => ?_
  split_ifs
  · exact .pure _
  · refine .bind (.look _) fun spaced => .bind (.look _) fun l => ?_
    dsimp only
    cases l.toSeparator d with
    | some separator =>
      exact .bind (.move keeps_skipWord) fun _ => agrees_sequenceFrom hle first separator
    | none =>
      dsimp only
      split_ifs
      · exact .pure _
      · exact agrees_sequenceFrom hle first .space
      · exact .fail (atLexeme_unexpected _ _ _)

theorem agrees_many {rule rule' : Rule Expr} (h : Agrees limit n k rule rule') (lexemes : Nat) :
    Agrees limit n k (many rule lexemes) (many rule' lexemes) := by
  induction lexemes with
  | zero => exact .pure _
  | succ lexemes ih =>
    refine .bind (.look _) fun ended => ?_
    split_ifs
    · exact .pure _
    · exact .bind h fun first => .bind ih fun rest => .pure _

end Entries

end Grammar

end FlatExpr
