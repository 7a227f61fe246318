import FlatExpr.Proofs.Agreement
import FlatExpr.Proofs.Limit

/-!
# Why a reading fails

Every error that a reading of a source can end in is listed with its reason (`Grammar.Failure`):
which lexeme it is about, and what that lexeme is or says. The lexeme is one of the source, or the
terminal after the last one.

A rule asks the dialect only about lexemes that it sees. So the list is established together with a
comparison of two grammars: over a source on whose lexemes their dialects agree, the rules of one do
what the rules of the other do, and fail only for the reasons in the list (`Rule.Alike`). With the
same grammar on both sides this says how a reading can fail; with two grammars, that nothing but
the lexemes of the source matters in a dialect.
-/

namespace FlatExpr

/-! ## What is seen of a source -/

/-- A lexeme that a reading can see: one of the source, or the terminal after the last one. -/
inductive Lexeme.SeenIn (source : Text) : Lexeme → Prop where
  | lexeme {l : Lexeme} (h : l ∈ all source) : SeenIn source l
  | terminal : SeenIn source (Cursor.ofSource source).terminal

namespace Cursor

/-- The cursor is over the lexemes of the source, wherever it stands. -/
structure Over (source : Text) (c : Cursor) : Prop where
  /-- The lexemes are those of the source. -/
  lexemes : c.lexemes = Lexeme.all source
  /-- Beyond them stands the terminal after the last one. -/
  terminal : c.terminal = (ofSource source).terminal

theorem over_ofSource (source : Text) : (ofSource source).Over source := ⟨rfl, rfl⟩

namespace Over

variable {source : Text} {c c' : Cursor} (h : c.Over source)

include h

theorem tidy : c.Tidy where
  lexemes := by
    rw [h.lexemes]
    exact (tidy_ofSource source).lexemes
  terminal := by
    rw [h.terminal]
    exact (tidy_ofSource source).terminal

theorem keeps (hkeeps : c.Keeps c') : c'.Over source where
  lexemes := by rw [hkeeps.lexemes, h.lexemes]
  terminal := by rw [hkeeps.terminal, h.terminal]

/-- What is seen of the lexemes on one side is a lexeme of the source or the terminal. -/
theorem seen_of_mem {l : Lexeme} (hl : l ∈ c.behind ∨ l ∈ c.ahead) : l.SeenIn source := by
  refine .lexeme ?_
  rw [← h.lexemes, Cursor.lexemes, List.mem_append, List.mem_reverse]
  exact hl

theorem seen_terminal : c.terminal.SeenIn source := by
  rw [h.terminal]
  exact .terminal

theorem seen_peek : c.peek.SeenIn source := by
  unfold peek
  split
  · exact h.seen_terminal
  · next hahead => exact h.seen_of_mem (.inr (by rw [hahead]; exact List.mem_cons_self))

theorem seen_last : c.last.SeenIn source := by
  unfold last
  split
  · exact h.seen_terminal
  · next hbehind => exact h.seen_of_mem (.inl (by rw [hbehind]; exact List.mem_cons_self))

theorem seen_peekWord : c.peekWord.SeenIn source := (h.keeps (keeps_skipSpace c)).seen_peek

end Over

end Cursor

/-! ## Reasons -/

namespace Grammar

open Cursor

/-- The errors of readings of a source, each with its reason. -/
inductive Failure (g : Grammar) (source : Text) : ParseError → Prop where
  /-- Operations are nested too deeply. -/
  | tooDeep (depth : Nat) : Failure g source (.tooDeep depth g.maxDepth)
  /-- The lexeme is a symbol that the dialect disables in every category. -/
  | disabled {l : Lexeme} {category : Expected} (seen : l.SeenIn source)
      (reported : l.disallowedCategory g.dialect = some category) :
      Failure g source (.disallowed category l.text l.start)
  /-- The lexeme is an identifier that the dialect does not allow. -/
  | identifier {l : Lexeme} (seen : l.SeenIn source) (shape : l.isIdentifier = true)
      (rejected : g.dialect.identifiers.allows l.text = false) :
      Failure g source (.disallowed .identifier l.text l.start)
  /-- The lexeme is a numeric that the dialect does not allow. -/
  | numeric {l : Lexeme} (seen : l.SeenIn source) (shape : l.isNumeric = true)
      (rejected : g.dialect.numerics.allows l.text = false) :
      Failure g source (.disallowed .numeric l.text l.start)
  /-- The lexeme is another one than the grammar wants. -/
  | unexpected {l : Lexeme} (expected : Expected) (seen : l.SeenIn source)
      (unreported : l.disallowedCategory g.dialect = none) :
      Failure g source (.unexpected expected l.text l.start)
  /-- The lexeme closes a bracket where a term should start. -/
  | closing {l : Lexeme} {b : Bracket} (seen : l.SeenIn source) (symbol : l.text = b.closing) :
      Failure g source (.unexpectedClosing b l.start)
  /-- The lexeme closes another bracket than the one that is open. -/
  | mismatch {l : Lexeme} (opened : Bracket) {b : Bracket} (seen : l.SeenIn source)
      (symbol : l.text = b.closing) : Failure g source (.bracketMismatch opened b l.start)
  /-- The lexeme opens a literal that is not closed. -/
  | unterminated {l : Lexeme} {q : Quote} (seen : l.SeenIn source) (symbol : l.text = q.symbol) :
      Failure g source (.unterminatedLiteral q l.start)
  /-- The lexeme is another separator than those before it. -/
  | mixed {l : Lexeme} (expected : Separator) {found : Separator} (seen : l.SeenIn source)
      (symbol : l.text = found.symbol) :
      Failure g source (.separatorMismatch expected found l.start)
  /-- The lexeme is the first of those that are left over. -/
  | unresolved {l : Lexeme} (seen : l.SeenIn source) (word : l.isTerminal = false)
      (unreported : l.disallowedCategory g.dialect = none) :
      Failure g source (.unresolved l.remainder l.start)

variable {g : Grammar} {source : Text} {l : Lexeme}

theorem failure_unexpected (expected : Expected) (seen : l.SeenIn source) :
    Failure g source (g.unexpected expected l) := by
  unfold Grammar.unexpected
  split
  · next category h => exact .disabled seen h
  · next h => exact .unexpected expected seen h

/-- A lexeme without a category is an identifier or a numeric that is not allowed. -/
theorem failure_of_classify {e : ParseError} (seen : l.SeenIn source)
    (h : l.classify g.dialect = .error e) : Failure g source e := by
  unfold Lexeme.classify at h
  split_ifs at h
  unfold Lexeme.toIdentifier Lexeme.toNumeric Allowed.require at h
  by_cases hi : l.isIdentifier = true
  · by_cases hallowed : g.dialect.identifiers.allows l.text = true
    · rw [if_pos hi, if_pos hallowed] at h
      cases h
    · rw [if_pos hi, if_neg hallowed] at h
      cases h
      exact .identifier seen hi (by simpa using hallowed)
  rw [if_neg hi] at h
  by_cases hn : l.isNumeric = true
  · by_cases hallowed : g.dialect.numerics.allows l.text = true
    · rw [if_pos hn, if_pos hallowed] at h
      cases h
    · rw [if_pos hn, if_neg hallowed] at h
      cases h
      exact .numeric seen hn (by simpa using hallowed)
  rw [if_neg hn] at h
  cases h

/-- A lexeme of the category of closing brackets is one. -/
theorem text_of_classify_closing {d : Dialect} {b : Bracket}
    (h : l.classify d = .ok (.bracket b false)) : l.text = b.closing := by
  rw [Lexeme.classify_eq_symbol_iff (by simp) (by simp) (by simp) (by simp)] at h
  have hb : l.toBracket d = some b ∧ Bracket.isOpening l.text = false := by
    have hsymbol := h.2
    unfold Lexeme.symbolCategory at hsymbol
    repeat' split at hsymbol
    all_goals simp_all
  obtain ⟨hfound, -⟩ := Option.filter_eq_some_iff.1 hb.1
  rcases (Bracket.ofSymbol?_eq_some_iff _ _).1 hfound with ht | ht
  · rw [ht, Bracket.isOpening_opening] at hb
    exact absurd hb.2 (by decide)
  · exact ht

/-- A lexeme that is a separator spells it, unless it is white space. -/
theorem text_of_toSeparator {d : Dialect} {found : Separator} (h : l.toSeparator d = some found)
    (hne : l.isWhitespace = true → found ≠ .space) : l.text = found.symbol := by
  unfold Lexeme.toSeparator at h
  cases hblank : l.isWhitespace with
  | true =>
    rw [hblank, if_pos rfl] at h
    obtain ⟨hfound, -⟩ := Option.filter_eq_some_iff.1 h
    exact absurd (Option.some.inj hfound).symm (hne hblank)
  | false =>
    rw [hblank, if_neg Bool.false_ne_true] at h
    exact ((Allowed.spelled?_eq_some_iff _ _ _).1 h).1

end Grammar

/-! ## Two runs over a source -/

namespace Rule

open Grammar

variable {α β : Type} {g : Grammar} {source : Text} {P : α → Prop} {Q : β → Prop}

/-- How a rule may end: with an answer of the given kind and the cursor still over the source, or
with an error that has its reason. -/
inductive Ends (g : Grammar) (source : Text) (P : α → Prop) :
    Except ParseError α × ReadState → Prop where
  | passed {a : α} {s : ReadState} (stays : s.cursor.Over source) (h : P a) :
      Ends g source P (.ok a, s)
  | failed {e : ParseError} {s : ReadState} (h : Failure g source e) :
      Ends g source P (.error e, s)

/-- From every state over the source, the second rule does what the first does, and that ends with
an answer of the given kind or with an error that has its reason. -/
def Alike (g : Grammar) (source : Text) (P : α → Prop) (r r' : Rule α) : Prop :=
  ∀ s, s.cursor.Over source → r' s = r s ∧ Ends g source P (r s)

namespace Alike

theorem pure {a : α} (h : P a) : Alike g source P (Pure.pure a : Rule α) (Pure.pure a) :=
  fun _ hs => ⟨rfl, .passed hs h⟩

theorem fail {e e' : ParseError} (heq : e' = e) (h : Failure g source e) :
    Alike g source P (Rule.fail e : Rule α) (Rule.fail e') :=
  fun _ _ => ⟨by rw [heq], .failed h⟩

theorem look {f f' : Cursor → α} (h : ∀ c, c.Over source → f' c = f c ∧ P (f c)) :
    Alike g source P (Rule.look f) (Rule.look f') := by
  intro s hs
  obtain ⟨heq, hP⟩ := h s.cursor hs
  exact ⟨by rw [Rule.look, Rule.look, heq], .passed hs hP⟩

theorem move {f : Cursor → Cursor} (h : ∀ c : Cursor, c.Keeps (f c)) :
    Alike g source (fun _ => True) (Rule.move f) (Rule.move f) :=
  fun s hs => ⟨rfl, .passed (hs.keeps (h s.cursor)) trivial⟩

theorem next : Alike g source (fun l => l.SeenIn source) Rule.next Rule.next :=
  fun s hs => ⟨rfl, .passed (hs.keeps (Cursor.keeps_skipWord s.cursor)) hs.seen_peekWord⟩

theorem bind {r r' : Rule α} {f f' : α → Rule β} (h : Alike g source P r r')
    (hf : ∀ a, P a → Alike g source Q (f a) (f' a)) :
    Alike g source Q (r >>= f) (r' >>= f') := by
  intro s hs
  obtain ⟨heq, hend⟩ := h s hs
  rw [bind_apply, bind_apply, heq]
  generalize r s = x at hend
  cases hend with
  | passed stays ha => exact hf _ ha _ stays
  | failed h => exact ⟨rfl, .failed h⟩

theorem nested {r r' : Rule α} (h : Alike g source P r r') :
    Alike g source P (Rule.nested r) (Rule.nested r') := by
  intro s hs
  obtain ⟨heq, hend⟩ := h { s with depth := s.depth + 1 } hs
  unfold Rule.nested
  rw [heq]
  generalize r { s with depth := s.depth + 1 } = x at hend
  cases hend with
  | passed stays ha => exact ⟨rfl, .passed stays ha⟩
  | failed h => exact ⟨rfl, .failed h⟩

end Alike

end Rule

/-! ## The rules of the grammar -/

namespace Grammar

open Rule Cursor

/-- The grammars have the same limit, and their dialects agree on every lexeme of the source. -/
structure AgreeOver (g g' : Grammar) (source : Text) : Prop where
  /-- The limits on nesting are the same. -/
  limit : g'.maxDepth = g.maxDepth
  /-- The dialects say the same of each lexeme. -/
  dialects : ∀ l ∈ Lexeme.all source, g.dialect.AgreeOn g'.dialect l.text

variable {g g' : Grammar} {source : Text} {l : Lexeme}

theorem AgreeOver.refl (g : Grammar) (source : Text) : g.AgreeOver g source :=
  ⟨rfl, fun l _ => .refl g.dialect l.text⟩

/-- The dialects agree on all that is seen, since nothing is to be said of a terminal. -/
theorem AgreeOver.seen (h : g.AgreeOver g' source) (hl : l.SeenIn source) :
    g.dialect.AgreeOn g'.dialect l.text := by
  cases hl with
  | lexeme hl => exact h.dialects l hl
  | terminal =>
    rw [(tidy_ofSource source).terminal]
    exact Dialect.agreeOn_nil _ _

/-! ### Literals -/

/-- Gathering asks about the lexemes ahead only. -/
theorem gather_congr {closes closes' : Lexeme → Bool} (run : TextRun) (behind : List Lexeme)
    {ls : List Lexeme} (h : ∀ l ∈ ls, closes' l = closes l) :
    gather closes' run behind ls = gather closes run behind ls := by
  induction ls generalizing run behind with
  | nil => rfl
  | cons l ls ih =>
    have hl : closes' l = closes l := h l (by simp)
    have hrest := ih (run.push l) (l :: behind) fun m hm => h m (List.mem_cons_of_mem l hm)
    simp only [gather, hl, hrest]

theorem alike_textUpTo {closes closes' : Lexeme → Bool}
    (h : ∀ l : Lexeme, l.SeenIn source → closes' l = closes l) :
    Alike g source (fun _ => True) (textUpTo closes) (textUpTo closes') := by
  intro s hs
  have hgather : gather closes' .empty s.cursor.behind s.cursor.ahead =
      gather closes .empty s.cursor.behind s.cursor.ahead :=
    gather_congr _ _ fun l hl => h l (hs.seen_of_mem (.inr hl))
  refine ⟨by simp only [textUpTo, hgather], ?_⟩
  exact .passed (hs.keeps (follows_textUpTo closes s).keeps) trivial

section Rules

variable (same : g.AgreeOver g' source)

include same

theorem alike_literal : Alike g source (fun _ => True) g.literal g'.literal := by
  refine .bind .next fun opened hopened => ?_
  have hagree := same.seen hopened
  rw [Lexeme.toQuote_eq hagree]
  cases hquote : opened.toQuote g.dialect with
  | none => exact .fail (unexpected_eq hagree _) (failure_unexpected _ hopened)
  | some quote =>
    obtain ⟨hsymbol, -⟩ := (Allowed.spelled?_eq_some_iff _ _ _).1 hquote
    refine .bind (alike_textUpTo fun l hl => ?_) fun content _ => ?_
    · rw [Lexeme.toQuote_eq (same.seen hl)]
    · cases content with
      | none => exact .fail rfl (.unterminated hopened hsymbol)
      | some value => exact .bind (.move keeps_skipSpace) fun _ _ => .pure trivial

/-! ### Terms and operands -/

variable {operation operation' : Rule Expr}
  (hoperation : Alike g source (fun _ => True) operation operation')

include hoperation

theorem alike_inBracketsWith :
    Alike g source (fun _ => True) (g.inBracketsWith operation)
      (g'.inBracketsWith operation') := by
  refine .bind .next fun opened hopened => ?_
  have hagree := same.seen hopened
  rw [opens?_eq hagree]
  cases g.opens? opened with
  | none => exact .fail (unexpected_eq hagree _) (failure_unexpected _ hopened)
  | some bracket =>
    refine .bind hoperation fun inner _ => .bind .next fun closed hclosed => ?_
    have hagree := same.seen hclosed
    rw [closes?_eq hagree]
    cases hcloses : g.closes? closed with
    | none => exact .fail (unexpected_eq hagree _) (failure_unexpected _ hclosed)
    | some other =>
      refine .bind (.move keeps_skipSpace) fun _ _ => ?_
      split_ifs
      · exact .pure trivial
      · exact .fail rfl (.mismatch bracket hclosed ((g.closes?_eq_some_iff _ _).1 hcloses).1)

theorem alike_termWith :
    Alike g source (fun _ => True) (g.termWith operation) (g'.termWith operation') := by
  refine .bind (.move keeps_skipSpace) fun _ _ =>
    .bind (.look fun c hc => ⟨rfl, hc.seen_peek⟩) fun l hl => ?_
  have hagree := same.seen hl
  rw [Lexeme.classify_eq hagree]
  have hword : Alike g source (fun _ => True) (move fun c => c.skip.skipSpace)
      (move fun c => c.skip.skipSpace) := .move fun c => (keeps_skip c).trans (keeps_skipSpace _)
  have hunexpected : Alike g source (fun _ => True) (fail (g.unexpected .term l) : Rule Expr)
      (fail (g'.unexpected .term l)) := .fail (unexpected_eq hagree _) (failure_unexpected _ hl)
  cases hcategory : l.classify g.dialect with
  | error e => exact .fail rfl (failure_of_classify hl hcategory)
  | ok category =>
  cases category with
  | identifier name => exact .bind hword fun _ _ => .pure trivial
  | numeric value => exact .bind hword fun _ _ => .pure trivial
  | prefixOp op => exact hoperation
  | quote q => exact alike_literal same
  | bracket b opens =>
    cases opens with
    | true => exact alike_inBracketsWith same hoperation
    | false => exact .fail rfl (.closing hl (text_of_classify_closing hcategory))
  | _ => exact hunexpected

omit hoperation in
/-- The postfix operator that the next word is depends on that word and the one after it. -/
theorem postfixOp?_congr {c : Cursor} (hc : c.Over source) : g'.postfixOp? c = g.postfixOp? c := by
  have hnext := same.seen hc.seen_peekWord
  have hafter := same.seen (hc.keeps (keeps_skipWord c)).seen_peekWord
  unfold postfixOp? continuesAsInfix
  rw [Lexeme.toInfixOp_eq hnext, startsOperand_eq hafter, Lexeme.toPostfixOp_eq hnext]

theorem alike_operandWith :
    Alike g source (fun _ => True) (g.operandWith operation) (g'.operandWith operation') := by
  refine .bind (.move keeps_skipSpace) fun _ _ => ?_
  refine .bind (P := fun _ => True) (.look fun c hc => ?_) fun before _ => ?_
  · exact ⟨Lexeme.toPrefixOp_eq (same.seen hc.seen_peek), trivial⟩
  refine .bind (.move fun c => ?_) fun _ _ => .bind (alike_termWith same hoperation)
    fun term _ => .bind (.move keeps_skipSpace) fun _ _ => ?_
  · split_ifs
    · exact keeps_skipWord c
    · exact .refl c
  refine .bind (P := fun _ => True) (.look fun c hc => ⟨postfixOp?_congr same hc, trivial⟩)
    fun after _ => .bind (.move fun c => ?_) fun _ _ => .pure trivial
  split_ifs
  · exact (keeps_skipWord c).trans (keeps_skipSpace _)
  · exact keeps_skipSpace c

/-! ### Runs of operands -/

omit hoperation

variable {operand operand' : Rule Expr}
  (hoperand : Alike g source (fun _ => True) operand operand')

section Operand

include hoperand

theorem alike_linksWith (lexemes : Nat) (op : InfixOp) :
    Alike g source (fun _ => True) (g.linksWith operand lexemes op)
      (g'.linksWith operand' lexemes op) := by
  induction lexemes generalizing op with
  | zero => exact .pure trivial
  | succ lexemes ih =>
    have hlink : Alike g source (fun _ => True) (g.linkWith operand) (g'.linkWith operand') := by
      refine .bind (.move keeps_skipWord) fun _ _ => .bind hoperand fun right _ =>
        .bind (.move keeps_skipSpace) fun _ _ => ?_
      refine .bind (P := fun _ => True) (.look fun c hc => ?_) fun following _ => .pure trivial
      exact ⟨Lexeme.toInfixOp_eq (same.seen hc.seen_peek), trivial⟩
    refine .bind hlink fun link _ => ?_
    obtain ⟨right, following⟩ := link
    cases following with
    | none => exact .pure trivial
    | some op' => exact .bind (ih op') fun rest _ => .pure trivial

omit same hoperand in
/-- Only where white space is the separator may the lexeme that continues a sequence be white
space. -/
theorem alike_separatorLexeme (separator : Separator) :
    Alike g source (fun l => l.SeenIn source ∧ (l.isWhitespace = true → separator = .space))
      (separatorLexeme separator) (separatorLexeme separator) := by
  unfold separatorLexeme
  cases separator with
  | space =>
    exact .bind (.move keeps_backSpace) fun _ _ =>
      .look fun c hc => ⟨rfl, hc.seen_peek, fun _ => rfl⟩
  | _ =>
    refine .look fun c hc => ⟨rfl, hc.seen_peekWord, fun hspace => ?_⟩
    have hword : c.peekWord.isWhitespace = false := hc.tidy.settled_skipSpace
    rw [hword] at hspace
    cases hspace

theorem alike_itemWith (separator : Separator) :
    Alike g source (fun _ => True) (g.itemWith operand separator)
      (g'.itemWith operand' separator) := by
  refine .bind hoperand fun term _ => .bind (alike_separatorLexeme separator) fun l hl => ?_
  obtain ⟨hseen, hspace⟩ := hl
  rw [Lexeme.toSeparator_eq (same.seen hseen)]
  cases hfound : l.toSeparator g.dialect with
  | none => exact .pure trivial
  | some found =>
    by_cases heq : found = separator
    · simp only [heq, if_true]
      refine .bind (.move fun c => ?_) fun _ _ => .bind (P := fun _ => True)
        (.look fun c _ => ⟨rfl, trivial⟩) fun ended _ => .pure trivial
      split_ifs
      · exact keeps_skipSpace c
      · exact keeps_skipWord c
    · -- white space would be the separator itself
      have hsymbol : l.text = found.symbol := text_of_toSeparator hfound fun hblank hfound' =>
        heq (by rw [hfound', hspace hblank])
      simp only [heq, if_false]
      exact .fail rfl (.mixed separator hseen hsymbol)

theorem alike_itemsWith (separator : Separator) (rounds : Nat) :
    Alike g source (fun _ => True) (g.itemsWith operand separator rounds)
      (g'.itemsWith operand' separator rounds) := by
  induction rounds with
  | zero => exact .pure trivial
  | succ rounds ih =>
    refine .bind (alike_itemWith same hoperand separator) fun item _ => ?_
    obtain ⟨term, more⟩ := item
    dsimp only
    split_ifs
    · exact .bind ih fun terms _ => .pure trivial
    · exact .pure trivial

end Operand

include hoperation

theorem alike_sequenceFromWith (first : Expr) (separator : Separator) :
    Alike g source (fun _ => True) (g.sequenceFromWith operation first separator)
      (g'.sequenceFromWith operation' first separator) :=
  .bind (P := fun _ => True) (.look fun _ _ => ⟨rfl, trivial⟩) fun _ _ =>
    .bind (alike_itemsWith same (alike_operandWith same hoperation) separator _)
      fun _ _ => .pure trivial

theorem alike_runWith :
    Alike g source (fun _ => True) (g.runWith operation) (g'.runWith operation') := by
  have hoperand := alike_operandWith same hoperation
  refine .bind hoperand fun left _ => .bind (.look fun c hc => ⟨rfl, hc.seen_peekWord⟩)
    fun l hl => ?_
  have hagree := same.seen hl
  rw [Lexeme.toInfixOp_eq hagree, Lexeme.toSeparator_eq hagree]
  cases l.toInfixOp g.dialect with
  | some op =>
    exact .bind (P := fun _ => True) (.look fun _ _ => ⟨rfl, trivial⟩) fun lexemes _ =>
      .bind (alike_linksWith same hoperand _ op) fun rest _ => .pure trivial
  | none =>
    cases l.toSeparator g.dialect with
    | none => exact .pure trivial
    | some separator =>
      dsimp only
      split_ifs
      · exact .pure trivial
      · exact .bind (.move keeps_skipWord) fun _ _ =>
          alike_sequenceFromWith same hoperation left separator

omit hoperation

/-! ### Operations, terms and sequences -/

/-- By induction on the levels that are left. -/
theorem alike_operationWithin (levels : Nat) :
    Alike g source (fun _ => True) (g.operationWithin levels) (g'.operationWithin levels) := by
  induction levels with
  | zero =>
    intro s _
    refine ⟨?_, .failed (.tooDeep (s.depth + 1))⟩
    simp only [operationWithin, refuse, same.limit]
  | succ levels ih => exact .nested (alike_runWith same ih)

theorem alike_operation : Alike g source (fun _ => True) g.operation g'.operation := by
  intro s hs
  have hwithin := alike_operationWithin same (g.maxDepth - s.depth) s hs
  unfold operation
  rw [same.limit]
  exact hwithin

theorem alike_term : Alike g source (fun _ => True) g.term g'.term :=
  alike_termWith same (alike_operation same)

theorem alike_sequence : Alike g source (fun _ => True) g.sequence g'.sequence := by
  refine .bind (alike_operation same) fun first _ => ?_
  split_ifs
  · exact .pure trivial
  -- white space behind is a lexeme of the source, on which the dialects agree
  refine .bind (P := fun spaced => spaced = true →
      g'.dialect.separators.allows .space = g.dialect.separators.allows .space)
    (.look fun c hc => ⟨rfl, fun hspaced => ((same.seen hc.seen_last).space hspaced).symm⟩)
    fun spaced hspaced => ?_
  have hspace : (spaced && g'.dialect.separators.allows .space) =
      (spaced && g.dialect.separators.allows .space) := by
    cases spaced with
    | true => rw [hspaced rfl]
    | false => rfl
  refine .bind (.look fun c hc => ⟨rfl, hc.seen_peekWord⟩) fun l hl => ?_
  have hagree := same.seen hl
  rw [Lexeme.toSeparator_eq hagree, hspace]
  cases l.toSeparator g.dialect with
  | some separator =>
    exact .bind (.move keeps_skipWord) fun _ _ =>
      alike_sequenceFromWith same (alike_operation same) first separator
  | none =>
    dsimp only
    split_ifs
    · exact .pure trivial
    · exact alike_sequenceFromWith same (alike_operation same) first .space
    · exact .fail (unexpected_eq hagree _) (failure_unexpected _ hl)

end Rules

/-! ## Whole sources -/

/-- The answers to a source under two grammars: they are the same, and an error has its reason. -/
structure SameAnswer {α : Type} (g : Grammar) (source : Text) (x x' : Except ParseError α) :
    Prop where
  /-- The answers are the same. -/
  eq : x' = x
  /-- An error is one of those that a reading can end in. -/
  failure : ∀ e, x = .error e → Failure g source e

theorem SameAnswer.map {α β : Type} {x x' : Except ParseError α} (h : SameAnswer g source x x')
    (f : α → β) : SameAnswer g source (x.map f) (x'.map f) where
  eq := by rw [h.eq]
  failure e he := by
    cases x with
    | error e' => exact h.failure e (congrArg Except.error (Except.error.inj he))
    | ok a => cases he

/-- What is left over is reported with its reason. -/
theorem sameAnswer_checkEnd (same : g.AgreeOver g' source) {c : Cursor} (hc : c.Over source) :
    SameAnswer g source (g.checkEnd c) (g'.checkEnd c) := by
  have hseen := hc.seen_peekWord
  constructor
  · simp only [checkEnd, Lexeme.disallowedCategory_eq (same.seen hseen)]
  · intro e he
    simp only [checkEnd] at he
    split_ifs at he with hterminal
    split at he
    · next category hcategory =>
      cases he
      exact .disabled hseen hcategory
    · next hnone =>
      cases he
      exact .unresolved hseen (by simpa using hterminal) hnone

theorem sameAnswer_parseWhole (same : g.AgreeOver g' source) {rule rule' : Rule Expr}
    (h : Alike g source (fun _ => True) rule rule') :
    SameAnswer g source (g.parseWhole rule source) (g'.parseWhole rule' source) := by
  obtain ⟨heq, hend⟩ := h (startOf source) (over_ofSource source)
  unfold parseWhole
  rw [heq]
  generalize rule (startOf source) = x at hend
  cases hend with
  | failed h => exact ⟨rfl, fun e he => Except.error.inj he ▸ h⟩
  | @passed a s stays _ => exact (sameAnswer_checkEnd same stays).map fun _ => a

theorem alike_many {rule rule' : Rule Expr} (h : Alike g source (fun _ => True) rule rule')
    (lexemes : Nat) : Alike g source (fun _ => True) (many rule lexemes) (many rule' lexemes) := by
  induction lexemes with
  | zero => exact .pure trivial
  | succ lexemes ih =>
    refine .bind (P := fun _ => True) (.look fun _ _ => ⟨rfl, trivial⟩) fun ended _ => ?_
    split_ifs
    · exact .pure trivial
    · exact .bind h fun first _ => .bind ih fun rest _ => .pure trivial

theorem sameAnswer_parseMany {rule rule' : Rule Expr}
    (h : Alike g source (fun _ => True) rule rule') :
    SameAnswer g source (parseMany rule source) (parseMany rule' source) := by
  obtain ⟨heq, hend⟩ := alike_many h (startOf source).cursor.ahead.length (startOf source)
    (over_ofSource source)
  unfold parseMany
  dsimp only
  rw [heq]
  generalize many rule _ (startOf source) = x at hend
  cases hend with
  | failed h => exact ⟨rfl, fun e he => Except.error.inj he ▸ h⟩
  | passed _ _ => exact ⟨rfl, nofun⟩

/-- One of the entry points answers the source with the error. -/
def Fails (g : Grammar) (source : Text) (e : ParseError) : Prop :=
  g.parseSequence source = .error e ∨ g.parseTerm source = .error e ∨
    g.parseExpression source = .error e ∨ g.parseTerms source = .error e ∨
    g.parseExpressions source = .error e

/-- Whatever entry point fails, the error has its reason. -/
theorem failure_of_fails {e : ParseError} (h : g.Fails source e) : Failure g source e := by
  have same := AgreeOver.refl g source
  rcases h with h | h | h | h | h
  · exact (sameAnswer_parseWhole same (alike_sequence same)).failure e h
  · exact (sameAnswer_parseWhole same (alike_term same)).failure e h
  · exact (sameAnswer_parseWhole same (alike_operation same)).failure e h
  · exact (sameAnswer_parseMany (alike_term same)).failure e h
  · exact (sameAnswer_parseMany (alike_operation same)).failure e h

end Grammar

end FlatExpr
