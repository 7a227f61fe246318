import FlatExpr.Proofs.Blanks
import FlatExpr.Proofs.Canonical
import FlatExpr.Proofs.EntryPoints
import FlatExpr.Proofs.Extension

/-!
# Terms and separators

Terms with separators between them are one sequence if the separators are all the same, and are
refused at the first separator that differs from the one before. This is proved here for terms that
are a single word, a literal or in brackets, and that are accepted on their own: such a term is read
in the same way in the middle of a sequence (`stands_of_atom`).

`OddItems` describes the words that the loop over the terms cannot finish: terms with one separator
between them, and then a separator of another kind. The loop reports that separator at the place
where it stands (`itemsWith_of_oddItems`), and the words before a place determine its offset.
-/

namespace FlatExpr

/-! ## Terms that stand for themselves -/

/-- Whether a tree is a word, a literal or an operation in brackets. -/
def Expr.isAtom : Expr → Bool
  | .identifier _ | .numeric _ | .literal _ _ | .bracketed _ _ => true
  | _ => false

theorem Expr.isAtom_ofRun (first : Expr) (p : InfixOp × Expr) (rest : List (InfixOp × Expr)) :
    (ofRun first (p :: rest)).isAtom = false := by
  cases rest <;> rfl

theorem Expr.eq_of_isAtom_attach {before : Option PrefixOp} {term : Expr} {after : Option PostfixOp}
    (h : (Grammar.attach before term after).isAtom = true) : before = none ∧ after = none := by
  cases before with
  | none =>
    cases after with
    | none => exact ⟨rfl, rfl⟩
    | some _ => cases h
  | some _ => cases after <;> cases h

/-- What divides two terms: a separator other than white space that the dialect allows, and that is
not one of its infix operators. -/
structure Separator.Divides (d : Dialect) (separator : Separator) : Prop where
  /-- The dialect allows it. -/
  allowed : d.separators.allows separator = true
  /-- It is not white space. -/
  symbolic : separator ≠ .space
  /-- Its symbol is not an infix operator. -/
  apart : ∀ op : InfixOp, op.symbol = separator.symbol → d.infixes.allows op = false

namespace Phrase

variable {d : Dialect} {levels : Nat} {ws : List Text} {e : Expr} {separator : Separator}

/-- An operand that is a word, a literal or in brackets is a bare term. -/
theorem term_of_operand {operation : Reading Expr} {ws' : List Text}
    (h : Operand d operation ws e ws') (hatom : e.isAtom = true) :
    d.prefixes.leading? ws = none ∧ Term d operation ws e ws' := by
  cases h with
  | mk hterm =>
    obtain ⟨hbefore, hafter⟩ := Expr.eq_of_isAtom_attach hatom
    rw [hbefore] at hterm
    rw [hbefore, hafter]
    exact ⟨rfl, hterm⟩

/-- An operation that is a word, a literal or in brackets is a single operand. -/
theorem operand_of_run {operand : Reading Expr} {ws' : List Text} (h : Run d operand ws e ws')
    (hatom : e.isAtom = true) : operand ws e ws' := by
  cases h with
  | single hoperand _ _ => exact hoperand
  | chain _ _ hlinks =>
    have hrun : (Expr.ofRun _ _).isAtom = true := hatom
    cases hlinks <;> cases (Expr.isAtom_ofRun _ _ _).symm.trans hrun
  | sequence => cases hatom

/-- The words of a tree are read as an operand in front of all words that do not start with a
postfix operator. -/
def Stands (d : Dialect) (levels : Nat) (e : Expr) : Prop :=
  ∀ ws, postfixOp? d ws = none → Operand d (Operation d levels) (e.yield ++ ws) e ws

/-- A word, a literal or brackets that are accepted alone are accepted in front of other words. -/
theorem stands_of_atom (h : Operation d (levels + 1) ws e []) (hatom : e.isAtom = true) :
    Stands d levels e := by
  obtain ⟨hbare, hterm⟩ := term_of_operand (operand_of_run h hatom) hatom
  obtain ⟨hws, hne⟩ := spells_term (spells_operation levels) hterm
  rw [List.append_nil] at hws
  subst hws
  intro rest hpost
  have hbare' : d.prefixes.leading? (e.yield ++ rest) = none := by
    rw [Allowed.leading?_append _ hne, hbare]
  exact .of_eq d hbare' hpost (term_append (extends_operation levels) hterm (.inl hbare) rest)

/-- In front of a separator an operand ends, and no infix operator follows. -/
theorem leads_separator (h : separator.Divides d) (ws : List Text) :
    postfixOp? d (separator.symbol :: ws) = none ∧
      d.infixes.leading? (separator.symbol :: ws) = none ∧
      d.separators.leading? (separator.symbol :: ws) = some separator := by
  refine ⟨Canonical.postfixOp?_separator separator ws, ?_, Allowed.spelled?_symbol h.allowed⟩
  rw [Option.eq_none_iff_forall_ne_some]
  intro op hop
  obtain ⟨hsymbol, hallowed⟩ := (Allowed.spelled?_eq_some_iff _ _ _).1 hop
  rw [h.apart op hsymbol.symm] at hallowed
  cases hallowed

/-! ## Sequences up to an odd separator -/

/-- Terms after a separator, with the same separator between them, up to a separator `found` that is
another one. -/
inductive OddItems (d : Dialect) (operand : Reading Expr) (separator found : Separator) :
    List Text → List Text → Prop where
  | odd {ws ws' : List Text} {e : Expr} (h : operand ws e ws')
      (lead : d.separators.leading? ws' = some found) (differs : found ≠ separator) :
      OddItems d operand separator found ws ws'
  | more {ws ws' ws'' : List Text} {e : Expr} (h : operand ws e ws')
      (lead : d.separators.leading? ws' = some separator)
      (items : OddItems d operand separator found ws'.tail ws'') :
      OddItems d operand separator found ws ws''

end Phrase

/-- A term of a sequence after the first: the separator before it, the text of the term and the tree
that this text is read as. -/
structure Item where
  /-- The separator before the term. -/
  separator : Separator
  /-- The text of the term. -/
  text : Text
  /-- The tree that the text is read as. -/
  tree : Expr

namespace Item

/-- The text of the term, with the separator between two blanks before it. -/
def written (i : Item) : Text := " ".toList ++ i.separator.symbol ++ " ".toList ++ i.text

/-- The words of the term, with the separator before them. -/
def words (i : Item) : List Text := i.separator.symbol :: i.tree.yield

/-- The text of a sequence: that of its first term, then each other with its separator. -/
def join (text : Text) (items : List Item) : Text := text ++ items.flatMap written

/-- The text of a sequence that is cut before the separator of a term. -/
theorem join_append (text : Text) (before : List Item) (i : Item) (after : List Item) :
    join text (before ++ i :: after) = join text before ++
      (" ".toList ++ i.separator.symbol ++ " ".toList ++ join i.text after) := by
  simp [join, written]

/-- The words of a sequence are those of its terms and the separators between them. -/
theorem says_join {d : Dialect} {text : Text} {ws : List Text} {items : List Item}
    (h : Says d text ws)
    (hitems : ∀ i ∈ items, i.separator ≠ .space ∧ Says d i.text i.tree.yield) :
    Says d (join text items) (ws ++ items.flatMap words) := by
  induction items generalizing text ws with
  | nil => simpa [join] using h
  | cons i items ih =>
    rw [List.forall_mem_cons] at hitems
    obtain ⟨⟨hsymbolic, hi⟩, hitems⟩ := hitems
    have hjoin := ih (h.append_separator hi hsymbolic) hitems
    simpa [join, written, words] using hjoin

end Item

namespace Phrase

variable {d : Dialect} {levels : Nat} {e : Expr} {separator : Separator}

/-- Terms with one separator between them are the terms of a sequence. -/
theorem items_of_same {items : List Item} (he : Stands d levels e)
    (hitems : ∀ i ∈ items, i.separator.Divides d ∧ Stands d levels i.tree)
    (hsame : ∀ i ∈ items, i.separator = separator) :
    Items d (Operand d (Operation d levels)) separator (e.yield ++ items.flatMap Item.words)
      (e :: items.map Item.tree) [] := by
  induction items generalizing e with
  | nil =>
    exact .last (he [] (Canonical.stops_nil d).after) (Allowed.leading?_nil _)
  | cons i items ih =>
    rw [List.forall_mem_cons] at hitems hsame
    obtain ⟨⟨hdivides, hstands⟩, hitems⟩ := hitems
    obtain ⟨rfl, hsame⟩ := hsame
    obtain ⟨hpost, -, hlead⟩ := leads_separator hdivides
      (i.tree.yield ++ items.flatMap Item.words)
    exact .more (he _ hpost) hlead (ih hstands hitems hsame)

/-- Terms with one separator between them and a separator of another kind after them. -/
theorem oddItems_of_differs {before after : List Item} {odd : Item} (he : Stands d levels e)
    (hitems : ∀ i ∈ before ++ odd :: after, i.separator.Divides d ∧ Stands d levels i.tree)
    (hsame : ∀ i ∈ before, i.separator = separator) (hodd : odd.separator ≠ separator) :
    OddItems d (Operand d (Operation d levels)) separator odd.separator
      (e.yield ++ (before ++ odd :: after).flatMap Item.words)
      ((odd :: after).flatMap Item.words) := by
  induction before generalizing e with
  | nil =>
    obtain ⟨⟨hdivides, -⟩, -⟩ := List.forall_mem_cons.1 hitems
    obtain ⟨hpost, -, hlead⟩ := leads_separator hdivides
      (odd.tree.yield ++ after.flatMap Item.words)
    exact .odd (he _ hpost) hlead hodd
  | cons i before ih =>
    rw [List.cons_append, List.forall_mem_cons] at hitems
    rw [List.forall_mem_cons] at hsame
    obtain ⟨⟨hdivides, hstands⟩, hitems⟩ := hitems
    obtain ⟨rfl, hsame⟩ := hsame
    obtain ⟨hpost, -, hlead⟩ := leads_separator hdivides
      (i.tree.yield ++ (before ++ odd :: after).flatMap Item.words)
    exact .more (he _ hpost) hlead (ih hstands hitems hsame)

end Phrase

/-! ## Where the reading stops -/

namespace Grammar

open Rule Cursor

variable {g : Grammar} {d : Dialect} {k : Nat} {separator found : Separator} {c c' : Cursor}
  {ws ws' : List Text}

/-- A reading from the cursor `c` answers that it met the separator `found` instead of another one.
It met it after some lexemes, with the words `ws` ahead. -/
def Stumbles {α : Type} (d : Dialect) (separator found : Separator) (c : Cursor)
    (answer : Except ParseError α) (ws : List Text) : Prop :=
  ∃ ls c', Passes d c ls c' ∧ c'.peek.isWhitespace = false ∧ c'.wordsAhead d = ws ∧
    answer = .error (.separatorMismatch separator found c'.peek.start)

theorem Stumbles.of_passes {α : Type} {answer : Except ParseError α} {ls : List Lexeme}
    (hpass : Passes d c ls c') (h : Stumbles d separator found c' answer ws) :
    Stumbles d separator found c answer ws := by
  obtain ⟨ms, c'', hpass', hstop⟩ := h
  exact ⟨ls ++ ms, c'', hpass.trans hpass', hstop⟩

/-- Rules that depend on one that fails answer with its error. -/
theorem Stumbles.imp {α β : Type} {answer : Except ParseError α} {answer' : Except ParseError β}
    (h : Stumbles d separator found c answer ws)
    (himp : ∀ e, answer = .error e → answer' = .error e) :
    Stumbles d separator found c answer' ws := by
  obtain ⟨ls, c', hpass, hsettled, hahead, hanswer⟩ := h
  exact ⟨ls, c', hpass, hsettled, hahead, himp _ hanswer⟩

section Items

variable {operand : Rule Expr} {phrase : Reading Expr} {s t : ReadState} {e : Expr}

/-- A round of a sequence fails at a separator of another kind. -/
theorem itemWith_of_odd (hsep : separator.isWhitespace = false) (hrun : operand s = (.ok e, t))
    (hfound : t.cursor.peekWord.toSeparator g.dialect = some found) (hne : found ≠ separator) :
    (g.itemWith operand separator s).1 =
      .error (.separatorMismatch separator found t.cursor.peekWord.start) := by
  have hlexeme : separatorLexeme separator = look Cursor.peekWord := by
    unfold separatorLexeme
    rw [hsep]
    rfl
  rw [itemWith, bind_of_ok hrun, hlexeme, look_bind]
  simp only [hfound, if_neg hne]
  rfl

/-- The loop over the terms stops at the first separator of another kind. -/
theorem itemsWith_of_oddItems (h : Reads g.dialect k operand phrase)
    (hsep : separator.isWhitespace = false) {n : Nat}
    (hodd : Phrase.OddItems g.dialect phrase separator found ws ws') (hs : s.cursor.Tidy)
    (hk : s.depth = k) (hws : s.cursor.wordsAhead g.dialect = ws)
    (hn : s.cursor.ahead.length < n) :
    Stumbles g.dialect separator found s.cursor (g.itemsWith operand separator n s).1 ws' := by
  induction hodd generalizing s n with
  | @odd ws ws' e hphrase hlead hne =>
    obtain ⟨n, rfl⟩ : ∃ m, n = m + 1 := ⟨n - 1, by omega⟩
    rw [← hws] at hphrase
    obtain ⟨t, hrun, hrest⟩ := h.complete s hs hk hphrase
    have hreach := (h.sound hrun hs hk).1
    obtain ⟨ls, -, hpass⟩ := hreach.passes
    have hfound : t.cursor.peekWord.toSeparator g.dialect = some found := by
      rw [(hreach.tidy hs).toSeparator_peekWord, hrest, hlead]
    have hpeek : t.cursor.peekWord = t.cursor.peek := by
      rw [peekWord, skipSpace_of_settled hreach.settled]
    refine ⟨ls, t.cursor, hpass, hreach.settled, hrest, ?_⟩
    rw [itemsWith, ← hpeek]
    exact fst_bind_of_error (itemWith_of_odd hsep hrun hfound hne)
  | @more ws ws' ws'' e hphrase hlead _ ih =>
    obtain ⟨n, rfl⟩ : ∃ m, n = m + 1 := ⟨n - 1, by omega⟩
    rw [← hws] at hphrase
    obtain ⟨t, hrun, hrest⟩ := h.complete s hs hk hphrase
    have hreach := (h.sound hrun hs hk).1
    have ht := hreach.tidy hs
    have hlead' : g.dialect.separators.leading? (t.cursor.wordsAhead g.dialect) =
        some separator := by rw [hrest, hlead]
    have hitem : g.itemWith operand separator s =
        (.ok (e, true), { t with cursor := t.cursor.skipWord }) := by
      refine (itemWith_eq_ok_iff hsep).2 ⟨t, hrun, .inr ⟨?_, rfl, rfl⟩⟩
      rw [ht.toSeparator_peekWord, hlead']
    -- the term and the separator were passed, so there are rounds left for the others
    obtain ⟨ls, -, hpass⟩ := hreach.passes
    obtain ⟨ms, hne, hpass', hwords⟩ := ht.passes_leading hlead'
    have hlength := hreach.length_lt
    have hlength' := hpass'.length_lt hne
    have hstop := ih (s := { t with cursor := t.cursor.skipWord }) (n := n)
      (hpass'.tidy ht) (by rw [← hk, ← hreach.depth]) (by rw [hwords, hrest])
      (by show t.cursor.skipWord.ahead.length < n; omega)
    rw [itemsWith, bind_of_ok hitem]
    exact (hstop.of_passes (hpass.trans hpass')).imp fun _ => fst_bind_of_error

end Items

/-- A run of operands stops where the terms of its sequence do. -/
theorem runWith_of_oddItems {operation : Rule Expr} {phrase : Reading Expr} {s : ReadState}
    {e : Expr} (h : Reads g.dialect k operation phrase) (hs : s.cursor.Tidy) (hk : s.depth = k)
    (hoperand : Phrase.Operand g.dialect phrase (s.cursor.wordsAhead g.dialect) e ws)
    (hstop : g.dialect.infixes.leading? ws = none)
    (hlead : g.dialect.separators.leading? ws = some separator)
    (hodd : Phrase.OddItems g.dialect (Phrase.Operand g.dialect phrase) separator found ws.tail
      ws') :
    Stumbles g.dialect separator found s.cursor (g.runWith operation s).1 ws' := by
  obtain ⟨t, hrun, hrest⟩ := (reads_operandWith h).complete s hs hk hoperand
  have hreach := ((reads_operandWith h).sound hrun hs hk).1
  have ht := hreach.tidy hs
  rw [← hrest] at hstop hlead
  have hinfixOp : t.cursor.peekWord.toInfixOp g.dialect = none := by
    rw [← hstop]
    exact ht.spelled?_peekWord _
  have hsep : t.cursor.peekWord.toSeparator g.dialect = some separator := by
    rw [ht.toSeparator_peekWord, hlead]
  have hsymbolic : separator.isWhitespace = false := ht.isWhitespace_of_leading hlead
  obtain ⟨ls, -, hpass⟩ := hreach.passes
  obtain ⟨ms, hne, hpass', hwords⟩ := ht.passes_leading hlead
  have hitems := itemsWith_of_oddItems (s := { t with cursor := t.cursor.skipWord })
    (reads_operandWith h) hsymbolic hodd (hpass'.tidy ht) (by rw [← hk, ← hreach.depth])
    (by rw [hwords, hrest]) (Nat.lt_succ_self _)
  rw [runWith, bind_of_ok hrun, look_bind]
  simp only [hinfixOp, hsep, hsymbolic]
  exact (hitems.of_passes (hpass.trans hpass')).imp fun _ => fst_bind_of_error

/-- The words before the separator that a reading met tell its offset. -/
theorem error_of_stumbles {α : Type} {before after : Text} {answer : Except ParseError α}
    (hbefore : Says d before ws) (hfound : found ≠ .space)
    (hwords : words d (Lexeme.texts (before ++
      (" ".toList ++ found.symbol ++ " ".toList ++ after))) = ws ++ ws')
    (h : Stumbles d separator found (startOf (before ++
      (" ".toList ++ found.symbol ++ " ".toList ++ after))).cursor answer ws') :
    answer = .error (.separatorMismatch separator found (Text.byteLength before + 1)) := by
  obtain ⟨ls, c, hpass, hsettled, hahead, rfl⟩ := h
  have hall : Lexeme.all (before ++ (" ".toList ++ found.symbol ++ " ".toList ++ after)) =
      ls ++ c.ahead := hpass.ahead
  have hpassed : words d (ls.map Lexeme.text) = ws := by
    rw [← wordsAhead_startOf ⟨d, 0⟩, hpass.wordsAhead_eq, hahead] at hwords
    exact List.append_cancel_right hwords
  have hblank : ∀ u ∈ (c.ahead.map Lexeme.text).head?, Text.isBlank u = false := by
    intro u hu
    cases hc : c.ahead with
    | nil => rw [hc] at hu; cases hu
    | cons l rest =>
      rw [hc] at hu
      obtain rfl : l.text = u := Option.some.inj hu
      rwa [peek_of_ahead hc] at hsettled
  obtain ⟨l, rest, hrest, hstart⟩ := hbefore.start_of_cut hfound hall hpass.closed hpassed hblank
  rw [peek_of_ahead hrest, hstart]

/-! ## Written sequences -/

/-- A text and the tree that it is read as, if that is a word, a literal or in brackets. -/
structure AcceptsAtom (g : Grammar) (text : Text) (tree : Expr) : Prop where
  /-- The text alone is read as the tree. -/
  accepted : g.parseExpression text = .ok tree
  /-- The tree is a word, a literal or in brackets. -/
  atom : tree.isAtom = true

/-- A source that is accepted as one phrase leaves no literal open. -/
theorem says_of_parseWhole {rule : Rule Expr} {phrase : Reading Expr} {source : Text} {e : Expr}
    (h : Reads g.dialect 0 rule phrase) (hspells : phrase.Spells)
    (hparse : g.parseWhole rule source = .ok e) : Says g.dialect source e.yield where
  words := words_of_parseWhole h hspells hparse
  closed := by
    obtain ⟨s', hrun, hend⟩ := parseWhole_eq_ok_iff.1 hparse
    obtain ⟨hreach, -⟩ := h.sound hrun (tidy_ofSource source) rfl
    obtain ⟨ls, -, hpass⟩ := hreach.passes
    have hall : Lexeme.all source = ls ++ s'.cursor.ahead := hpass.ahead
    rw [checkEnd_eq_ok_iff (hreach.tidy (tidy_ofSource source))] at hend
    rw [← Lexeme.map_text_all, hall, List.map_append]
    exact hpass.closed.append (closed_of_words_eq_nil hend)

variable {text : Text} {tree : Expr}

theorem AcceptsAtom.says_text (h : g.AcceptsAtom text tree) : Says g.dialect text tree.yield :=
  says_of_parseWhole (reads_operation g 0) (Phrase.spells_operation _) h.accepted

/-- Where a term is accepted alone there is a level of nesting, and on that level the term can be
followed by other words. -/
theorem AcceptsAtom.stands (h : g.AcceptsAtom text tree) {levels : Nat}
    (hlevels : g.maxDepth = levels + 1) : Phrase.Stands g.dialect levels tree := by
  have hphrase := (parseWhole_iff_phrase (reads_operation g 0)).1 h.accepted
  rw [Nat.sub_zero, hlevels] at hphrase
  exact Phrase.stands_of_atom hphrase h.atom

theorem AcceptsAtom.exists_levels (h : g.AcceptsAtom text tree) :
    ∃ levels, g.maxDepth = levels + 1 := by
  have hphrase := (parseWhole_iff_phrase (reads_operation g 0)).1 h.accepted
  cases hdepth : g.maxDepth with
  | zero =>
    rw [hdepth] at hphrase
    exact hphrase.elim
  | succ levels => exact ⟨levels, rfl⟩

section Join

variable {item odd : Item} {items before after : List Item}

/-- What is asked of the terms after the first and of their separators. -/
def AcceptsItems (g : Grammar) (items : List Item) : Prop :=
  ∀ i ∈ items, g.AcceptsAtom i.text i.tree ∧ i.separator.Divides g.dialect

theorem AcceptsItems.says_join (hitems : g.AcceptsItems items) (h : g.AcceptsAtom text tree) :
    Says g.dialect (Item.join text items) (tree.yield ++ items.flatMap Item.words) :=
  Item.says_join h.says_text fun i hi => ⟨(hitems i hi).2.symbolic, (hitems i hi).1.says_text⟩

theorem AcceptsItems.stands (hitems : g.AcceptsItems items) {levels : Nat}
    (hlevels : g.maxDepth = levels + 1) :
    ∀ i ∈ items, i.separator.Divides g.dialect ∧ Phrase.Stands g.dialect levels i.tree :=
  fun i hi => ⟨(hitems i hi).2, (hitems i hi).1.stands hlevels⟩

/-- Terms with one separator between them are one sequence. -/
theorem parseExpression_join_of_same (hfirst : g.AcceptsAtom text tree)
    (hitems : g.AcceptsItems (item :: items)) (hsame : ∀ i ∈ items, i.separator = item.separator) :
    g.parseExpression (Item.join text (item :: items)) =
      .ok (.sequence (tree :: (item :: items).map Item.tree) item.separator) := by
  obtain ⟨levels, hlevels⟩ := hfirst.exists_levels
  obtain ⟨⟨hdivides, hitem⟩, hstands⟩ := List.forall_mem_cons.1 (hitems.stands hlevels)
  obtain ⟨hpost, hstop, hlead⟩ := Phrase.leads_separator hdivides
    (item.tree.yield ++ items.flatMap Item.words)
  have hsymbolic : item.separator.isWhitespace = false := by
    cases hseparator : item.separator with
    | space => exact absurd hseparator hdivides.symbolic
    | _ => rfl
  refine (parseWhole_iff_phrase (reads_operation g 0)).2 ?_
  rw [(hitems.says_join hfirst).words, Nat.sub_zero, hlevels]
  exact .sequence (hfirst.stands hlevels _ hpost) hstop hlead hsymbolic
    (Phrase.items_of_same hitem hstands hsame)

/-- The rule for operations stops at the first separator of another kind. -/
theorem operation_stumbles (hfirst : g.AcceptsAtom text tree)
    (hitems : g.AcceptsItems (item :: (before ++ odd :: after)))
    (hsame : ∀ i ∈ before, i.separator = item.separator)
    (hodd : odd.separator ≠ item.separator) :
    Stumbles g.dialect item.separator odd.separator
      (startOf (Item.join text (item :: (before ++ odd :: after)))).cursor
      (g.operation (startOf (Item.join text (item :: (before ++ odd :: after))))).1
      ((odd :: after).flatMap Item.words) := by
  obtain ⟨levels, hlevels⟩ := hfirst.exists_levels
  obtain ⟨⟨hdivides, hitem⟩, hstands⟩ := List.forall_mem_cons.1 (hitems.stands hlevels)
  obtain ⟨hpost, hstop, hlead⟩ := Phrase.leads_separator hdivides
    (item.tree.yield ++ (before ++ odd :: after).flatMap Item.words)
  have hwords := (hitems.says_join hfirst).words
  rw [← wordsAhead_startOf g] at hwords
  -- from here on the source is known by its words alone
  generalize Item.join text (item :: (before ++ odd :: after)) = source at hwords ⊢
  have hs : (startOf source).cursor.Tidy := tidy_ofSource source
  have hoperation : (g.operation (startOf source)).1 =
      (g.runWith (g.operationWithin levels) { startOf source with depth := 1 }).1 := by
    unfold operation
    rw [hlevels]
    rfl
  have hoperand := hfirst.stands hlevels _ hpost
  rw [List.flatMap_cons, Item.words, List.cons_append] at hwords
  rw [← hwords] at hoperand
  rw [hoperation]
  exact runWith_of_oddItems (s := { startOf source with depth := 1 })
    (reads_operationWithin levels 1) hs rfl hoperand hstop hlead
    (Phrase.oddItems_of_differs hitem hstands hsame hodd)

/-- An odd separator is reported at its offset. -/
theorem operation_join_of_differs (hfirst : g.AcceptsAtom text tree)
    (hitems : g.AcceptsItems (item :: (before ++ odd :: after)))
    (hsame : ∀ i ∈ before, i.separator = item.separator)
    (hodd : odd.separator ≠ item.separator) :
    (g.operation (startOf (Item.join text (item :: (before ++ odd :: after))))).1 =
      .error (.separatorMismatch item.separator odd.separator
        (Text.byteLength (Item.join text (item :: before)) + 1)) := by
  have hstop := operation_stumbles hfirst hitems hsame hodd
  have hwords := (hitems.says_join hfirst).words
  have hbefore : g.AcceptsItems (item :: before) := fun i hi =>
    hitems i (by simpa using Or.imp_right .inl (List.mem_cons.1 hi))
  have hsymbolic : odd.separator ≠ .space := (hitems odd (by simp)).2.symbolic
  rw [← List.cons_append, Item.join_append] at hstop hwords ⊢
  rw [List.flatMap_append, ← List.append_assoc tree.yield] at hwords
  exact error_of_stumbles (hbefore.says_join hfirst) hsymbolic hwords hstop

end Join

/-- Mixed separators are refused at the first odd one. Let two or more terms, each of them accepted
alone as a word, a literal or in brackets, be written with separators between them that divide
terms. If the separators are all the same, they are read as one sequence; otherwise the answer is
that the first one that differs stands in the place of the others, at its offset. -/
theorem parse_join (g : Grammar) (text : Text) (tree : Expr) (item : Item) (items : List Item)
    (hfirst : g.AcceptsAtom text tree) (hitems : g.AcceptsItems (item :: items)) :
    ∀ parse ∈ [g.parseExpression, g.parseSequence],
      ((∀ i ∈ items, i.separator = item.separator) →
        parse (Item.join text (item :: items)) =
          .ok (.sequence (tree :: (item :: items).map Item.tree) item.separator)) ∧
      (∀ before odd after, items = before ++ odd :: after →
        (∀ i ∈ before, i.separator = item.separator) → odd.separator ≠ item.separator →
        parse (Item.join text (item :: items)) =
          .error (.separatorMismatch item.separator odd.separator
            (Text.byteLength (Item.join text (item :: before)) + 1))) := by
  simp only [List.forall_mem_cons]
  refine ⟨⟨?_, ?_⟩, ⟨?_, ?_⟩, by simp⟩
  · exact parseExpression_join_of_same hfirst hitems
  · rintro before odd after rfl hsame hodd
    exact parseWhole_of_error (operation_join_of_differs hfirst hitems hsame hodd)
  · intro hsame
    exact parseSequence_of_parseExpression (parseExpression_join_of_same hfirst hitems hsame)
  · rintro before odd after rfl hsame hodd
    refine parseWhole_of_error ?_
    rw [sequence]
    exact fst_bind_of_error (operation_join_of_differs hfirst hitems hsame hodd)

/-- Where the colon is no infix operator: a literal that holds a comma and white space of its own
around it, brackets with a sequence by colons inside, and a colon after two commas. -/
theorem parse_join_mixed :
    (⟨{ infixes := .except (.ofList [.colon]) }, 2⟩ : Grammar).parseSequence
        (Item.join "a".toList [⟨.comma, " 'é, ' ".toList, .literal .single "é, ".toList⟩,
          ⟨.comma, "[x : y]".toList, .bracketed .square (.sequence
            [.identifier "x".toList, .identifier "y".toList] .colon)⟩]) =
      .ok (.sequence [.identifier "a".toList, .literal .single "é, ".toList,
        .bracketed .square (.sequence [.identifier "x".toList, .identifier "y".toList] .colon)]
        .comma) ∧
    (⟨{ infixes := .except (.ofList [.colon]) }, 2⟩ : Grammar).parseExpression
        (Item.join "a".toList [⟨.comma, " 'é, ' ".toList, .literal .single "é, ".toList⟩,
          ⟨.comma, "[x : y]".toList, .bracketed .square (.sequence
            [.identifier "x".toList, .identifier "y".toList] .colon)⟩,
          ⟨.colon, "7".toList, .numeric "7".toList⟩]) =
      .error (.separatorMismatch .comma .colon 23) := by
  have hcomma : Separator.comma.Divides { infixes := .except (.ofList [.colon]) } :=
    ⟨rfl, nofun, fun op hop => nomatch (OneSpelling.ofSymbol?_eq_some_iff _ op).2 hop.symm⟩
  have hcolon : Separator.colon.Divides { infixes := .except (.ofList [.colon]) } :=
    ⟨rfl, nofun, fun op hop => by cases (OneSpelling.ofSymbol?_eq_some_iff _ op).2 hop.symm; rfl⟩
  constructor
  · exact (parse_join ⟨{ infixes := .except (.ofList [.colon]) }, 2⟩ _ _ _ _
      ⟨by decide +kernel, rfl⟩ (List.forall_mem_cons.2 ⟨⟨⟨by decide +kernel, rfl⟩, hcomma⟩,
        List.forall_mem_singleton.2 ⟨⟨by decide +kernel, rfl⟩, hcomma⟩⟩) _ (by simp)).1 (by simp)
  · exact (parse_join ⟨{ infixes := .except (.ofList [.colon]) }, 2⟩ _ (.identifier "a".toList) _ _
      ⟨by decide +kernel, rfl⟩ (List.forall_mem_cons.2 ⟨⟨⟨by decide +kernel, rfl⟩, hcomma⟩,
        List.forall_mem_cons.2 ⟨⟨⟨by decide +kernel, rfl⟩, hcomma⟩,
          List.forall_mem_singleton.2 ⟨⟨by decide +kernel, rfl⟩, hcolon⟩⟩⟩) _ (by simp)).2
      [_] _ [] rfl (by simp) nofun

end Grammar

end FlatExpr
