import FlatExpr.Expr.Render
import FlatExpr.Proofs.Yield

/-!
# The words of a rendering

A rendered tree falls apart into the words of the tree. The renderer leaves out most blanks, so this
takes an argument for every place where two parts touch: the boundary rule must cut there. It does
unless both neighbours are punctuation, or both belong to a word. `Written` keeps what is needed
about the two ends of a text: they are never white space, and they are punctuation only where the
tree starts or ends with an operator.

That holds of the trees that are `Legible`: names and numbers have their shape, literals do not hold
their own mark, brackets are not angles, which are punctuation, and no postfix operator follows
another operator directly.
-/

namespace FlatExpr

open Lexeme

/-! ## Runs of punctuation -/

/-- Whether a text is not empty and holds punctuation only. -/
def Text.isPunctuation (t : Text) : Bool :=
  !t.isEmpty && t.all fun c => CharKind.of c == .punctuation

theorem Text.isPunctuation_iff (t : Text) :
    isPunctuation t = true ↔ t ≠ [] ∧ ∀ c ∈ t, CharKind.of c = .punctuation := by
  simp [isPunctuation]

theorem InfixOp.isPunctuation_symbol (op : InfixOp) : Text.isPunctuation op.symbol = true := by
  cases op <;> decide

theorem PrefixOp.isPunctuation_symbol (op : PrefixOp) : Text.isPunctuation op.symbol = true := by
  cases op <;> decide

theorem PostfixOp.isPunctuation_symbol (op : PostfixOp) : Text.isPunctuation op.symbol = true := by
  cases op <;> decide

theorem Separator.isPunctuation_symbol {separator : Separator}
    (h : separator.isWhitespace = false) : Text.isPunctuation separator.symbol = true := by
  cases separator with
  | space => cases h
  | _ => decide

/-- The brackets that are no angles are single characters of a kind of their own. -/
theorem Bracket.symbols_eq {b : Bracket} (h : b ≠ .angle) :
    (∃ c, b.opening = [c] ∧ CharKind.of c = .brackets) ∧
      (∃ c, b.closing = [c] ∧ CharKind.of c = .brackets) := by
  cases b with
  | angle => exact absurd rfl h
  | _ => exact ⟨⟨_, rfl, by decide⟩, ⟨_, rfl, by decide⟩⟩

/-- A text of punctuation is one lexeme. -/
theorem Lexeme.texts_of_isPunctuation {t : Text} (h : Text.isPunctuation t = true) :
    texts t = [t] := by
  rw [Text.isPunctuation_iff] at h
  apply List.splitBy_of_isChain h.1
  apply List.Pairwise.isChain
  apply List.pairwise_of_forall_mem_list
  intro x hx y hy
  rw [together_iff, h.2 x hx, h.2 y hy]
  exact .inr ⟨rfl, .inr rfl⟩

/-! ## Written texts -/

/-- A character at the end of a written text: it is not white space, and it is punctuation only if
there is an operator. -/
def Edge (operator : Bool) (c : Char) : Prop :=
  CharKind.of c ≠ .whitespace ∧ (operator = false → CharKind.of c ≠ .punctuation)

/-- A text and the words it is cut into; `starts` and `ends` tell whether it may start and end with
the punctuation of an operator. -/
structure Written (d : Dialect) (t : Text) (ws : List Text) (starts ends : Bool) : Prop where
  /-- No literal is left open. -/
  closed : Closed d (texts t)
  /-- The words of the text. -/
  words : words d (texts t) = ws
  /-- What the text starts with. -/
  first : ∃ c, t.head? = some c ∧ Edge starts c
  /-- What the text ends with. -/
  last : ∃ c, t.getLast? = some c ∧ Edge ends c

namespace Written

variable {d : Dialect} {s t : Text} {ws ws' : List Text} {a b a' b' : Bool}

/-- Two written texts side by side, where the boundary rule cuts between them. -/
theorem append (hs : Written d s ws a b) (ht : Written d t ws' a' b')
    (hcut : ∀ x ∈ s.getLast?, ∀ y ∈ t.head?, together x y = false) :
    Written d (s ++ t) (ws ++ ws') a b' where
  closed := by
    rw [texts_append hcut]
    exact hs.closed.append ht.closed
  words := by
    rw [texts_append hcut, words_append hs.closed, hs.words, ht.words]
  first := by
    obtain ⟨c, hc, hedge⟩ := hs.first
    exact ⟨c, by rw [List.head?_append, hc]; rfl, hedge⟩
  last := by
    obtain ⟨c, hc, hedge⟩ := ht.last
    exact ⟨c, by rw [List.getLast?_append, hc]; rfl, hedge⟩

/-- A blank between two written texts is a lexeme of its own. -/
theorem texts_append_blank (hs : Written d s ws a b) (ht : Written d t ws' a' b') :
    texts (s ++ " ".toList ++ t) = texts s ++ (" ".toList :: texts t) := by
  -- neither neighbour of the blank is white space
  obtain ⟨x, hx, hedgex⟩ := hs.last
  obtain ⟨y, hy, hedgey⟩ := ht.first
  exact Lexeme.texts_append_blank hx hy hedgex.1 hedgey.1

/-- The tokens of two written texts with a blank between them. -/
theorem tokens_append_blank (hs : Written d s ws a b) (ht : Written d t ws' a' b') :
    tokens d (texts (s ++ " ".toList ++ t)) =
      tokens d (texts s) ++ none :: tokens d (texts t) := by
  have hblank : Text.isBlank " ".toList = true := by decide
  have hgap : Closed d [" ".toList] := closed_singleton (spelled?_quote_of_isBlank hblank)
  rw [hs.texts_append_blank ht, tokens_append hs.closed, ← List.singleton_append,
    tokens_append hgap, tokens_blank hblank]
  rfl

/-- Two written texts with a blank between them. -/
theorem append_blank (hs : Written d s ws a b) (ht : Written d t ws' a' b') :
    Written d (s ++ " ".toList ++ t) (ws ++ ws') a b' where
  closed := by
    have hblank : Text.isBlank " ".toList = true := by decide
    rw [hs.texts_append_blank ht]
    exact hs.closed.append
      ((closed_singleton (spelled?_quote_of_isBlank hblank)).append ht.closed)
  words := by
    unfold FlatExpr.words
    rw [hs.tokens_append_blank ht, List.reduceOption_append, List.reduceOption_cons_of_none]
    exact congrArg₂ _ hs.words ht.words
  first := by
    obtain ⟨c, hc, hedge⟩ := hs.first
    exact ⟨c, by rw [List.append_assoc, List.head?_append, hc]; rfl, hedge⟩
  last := by
    obtain ⟨c, hc, hedge⟩ := ht.last
    exact ⟨c, by rw [List.getLast?_append, hc]; rfl, hedge⟩

/-- An operator after a text that does not end with punctuation. -/
theorem append_punctuation (hs : Written d s ws a false) (ht : Written d t ws' a' b')
    (hpunctuation : Text.isPunctuation t = true) : Written d (s ++ t) (ws ++ ws') a b' := by
  refine hs.append ht ?_
  intro x hx y hy
  obtain ⟨x', hx', hedge⟩ := hs.last
  obtain rfl : x' = x := Option.some.inj (hx'.symm.trans hx)
  have hkind := ((Text.isPunctuation_iff t).1 hpunctuation).2 y (List.mem_of_head? hy)
  exact together_eq_false_of_kind_ne (by rw [hkind]; exact hedge.2 rfl) (.inr (by rw [hkind]; rfl))

/-- An operator before a text that does not start with punctuation. -/
theorem punctuation_append (hs : Written d s ws a b) (ht : Written d t ws' false b')
    (hpunctuation : Text.isPunctuation s = true) : Written d (s ++ t) (ws ++ ws') a b' := by
  refine hs.append ht ?_
  intro x hx y hy
  obtain ⟨y', hy', hedge⟩ := ht.first
  obtain rfl : y' = y := Option.some.inj (hy'.symm.trans hy)
  have hkind := ((Text.isPunctuation_iff s).1 hpunctuation).2 x (List.mem_of_getLast? hx)
  exact together_eq_false_of_kind_ne (by rw [hkind]; exact (hedge.2 rfl).symm)
    (.inl (by rw [hkind]; rfl))

/-! ## Single words -/

/-- A text that is one lexeme, and not a quotation mark, is one word. -/
theorem of_texts {c c' : Char} (htexts : texts t = [t]) (hquote : d.quotes.spelled? t = none)
    (hfirst : t.head? = some c) (hlast : t.getLast? = some c') (hedge : Edge a c)
    (hedge' : Edge b c') : Written d t [t] a b where
  closed := by
    rw [htexts]
    exact closed_singleton hquote
  words := by
    have hblank : Text.isBlank t = false := by
      obtain ⟨u, rfl⟩ : ∃ u, t = c :: u := List.head?_eq_some_iff.1 hfirst
      apply Text.isBlank_cons_of_not_white
      rw [← Bool.not_eq_true, ← CharKind.of_eq_whitespace_iff]
      exact hedge.1
    rw [htexts, words_cons_word hblank hquote, words_nil]
  first := ⟨c, hfirst, hedge⟩
  last := ⟨c', hlast, hedge'⟩

/-- The symbol of an operator is one word. -/
theorem of_isPunctuation (h : Text.isPunctuation t = true) (hquote : d.quotes.spelled? t = none) :
    Written d t [t] true true := by
  have htexts := texts_of_isPunctuation h
  obtain ⟨hne, hkind⟩ := (Text.isPunctuation_iff t).1 h
  have hedge : ∀ c ∈ t, Edge true c := by
    intro c hc
    refine ⟨by rw [hkind c hc]; decide, nofun⟩
  exact of_texts htexts hquote (List.head?_eq_some_head hne) (List.getLast?_eq_some_getLast hne)
    (hedge _ (List.head_mem hne)) (hedge _ (List.getLast_mem hne))

/-- A text of word characters is one word, which no operator touches. -/
theorem of_isWord (h : Text.IsWord t) :
    Written d t [t] false false := by
  obtain ⟨hne, hkind⟩ := h
  have hedge : ∀ c ∈ t, Edge false c := by
    intro c hc
    have hword := hkind c hc
    constructor
    · intro h
      rw [h] at hword
      cases hword
    · intro _ h
      rw [h] at hword
      cases hword
  exact of_texts (texts_of_word hne hkind) (spelled?_quote_word d ⟨hne, hkind⟩)
    (List.head?_eq_some_head hne) (List.getLast?_eq_some_getLast hne)
    (hedge _ (List.head_mem hne)) (hedge _ (List.getLast_mem hne))

/-- A text between two brackets that are no angles, which no operator touches. -/
theorem bracketed (h : Written d t ws a b) {bracket : Bracket} (hkind : bracket ≠ .angle) :
    Written d (bracket.opening ++ t ++ bracket.closing)
      (bracket.opening :: (ws ++ [bracket.closing])) false false := by
  obtain ⟨⟨x, hx, hkindx⟩, ⟨y, hy, hkindy⟩⟩ := Bracket.symbols_eq hkind
  have hword : ∀ {c : Char}, CharKind.of c = .brackets → d.quotes.spelled? [c] = none →
      Written d [c] [[c]] false false := by
    intro c hc hquote
    have hedge : Edge false c := ⟨by rw [hc]; decide, fun _ => by rw [hc]; decide⟩
    exact of_texts rfl hquote rfl rfl hedge hedge
  obtain ⟨hquotex, hquotey⟩ := spelled?_quote_bracket d bracket
  rw [hx] at hquotex
  rw [hy] at hquotey
  rw [hx, hy]
  -- the boundary rule cuts on both sides of a bracket
  have hopened : Written d ([x] ++ t) ([[x]] ++ ws) false b := by
    refine (hword hkindx hquotex).append h ?_
    intro x' hx' y' _
    obtain rfl : x = x' := Option.some.inj hx'
    exact together_eq_false_of_alone (.inr (.inl hkindx))
  refine hopened.append (hword hkindy hquotey) ?_
  intro x' _ y' hy'
  obtain rfl : y = y' := Option.some.inj hy'
  exact together_eq_false_of_alone (.inr (.inr (.inr hkindy)))

/-- A literal whose text does not hold its mark has three words. -/
theorem of_literal {q : Quote} {value : Text} (hallowed : d.quotes.allows q = true)
    (hclear : ∀ c ∈ q.symbol, c ∉ value) :
    Written d (q.symbol ++ value ++ q.symbol) [q.symbol, value, q.symbol] false false := by
  obtain ⟨m, hm⟩ : ∃ m, q.symbol = [m] := by cases q <;> exact ⟨_, rfl⟩
  have hkind : CharKind.of m = .quote := (kind_of_mem_quote q (by rw [hm]; simp)).2
  have htexts := texts_literal q value
  have hflatten : (texts value).flatten = value := List.flatten_splitBy together value
  have hcontent : ∀ t ∈ texts value, d.quotes.spelled? t ≠ some q := by
    intro t ht hspelled
    obtain ⟨rfl, -⟩ := (Allowed.spelled?_eq_some_iff _ _ _).1 hspelled
    have hmark : m ∈ q.symbol := by rw [hm]; exact List.mem_singleton_self m
    apply hclear m hmark
    rw [← hflatten]
    exact List.mem_flatten.2 ⟨_, ht, hmark⟩
  have hedge : Edge false m := ⟨by rw [hkind]; decide, fun _ => by rw [hkind]; decide⟩
  refine ⟨?_, ?_, ⟨m, ?_, hedge⟩, ⟨m, ?_, hedge⟩⟩
  · rw [htexts]
    exact closed_literal hallowed hcontent
  · rw [htexts, FlatExpr.words, tokens_literal hallowed hcontent, hflatten]
    rfl
  · rw [hm]
    rfl
  · rw [hm, List.getLast?_append]
    rfl

end Written

/-! ## Legible trees -/

/-- The trees whose rendering can be cut into their words again. -/
inductive Legible (d : Dialect) : Expr → Prop where
  | identifier {name : Text} (shape : isIdentifierText name = true) : Legible d (.identifier name)
  | numeric {value : Text} (shape : isNumericText value = true) : Legible d (.numeric value)
  | literal {q : Quote} {value : Text} (allowed : d.quotes.allows q = true)
      (clear : ∀ c ∈ q.symbol, c ∉ value) : Legible d (.literal q value)
  | prefixed {op : PrefixOp} {operand : Expr} (h : Legible d operand) :
      Legible d (.prefixed op operand)
  | postfixed {op : PostfixOp} {operand : Expr} (h : Legible d operand)
      (bare : operand.endsWithOperator = false) : Legible d (.postfixed operand op)
  | binary {left right : Expr} {op : InfixOp} (hleft : Legible d left) (hright : Legible d right) :
      Legible d (.binary left op right)
  | chain {first : Expr} {rest : List (InfixOp × Expr)} (h : Legible d first)
      (nonempty : rest ≠ []) (hrest : ∀ p ∈ rest, Legible d p.2) : Legible d (.chain first rest)
  | bracketed {b : Bracket} {inner : Expr} (kind : b ≠ .angle) (h : Legible d inner) :
      Legible d (.bracketed b inner)
  | sequence {terms : List Expr} {separator : Separator} (nonempty : terms ≠ [])
      (h : ∀ t ∈ terms, Legible d t) : Legible d (.sequence terms separator)

namespace Written

open FlatExpr.Expr

variable {d : Dialect} {s : Text} {ws : List Text} {a b : Bool}

/-- The rendering of a tree is written as its yield. -/
abbrev Renders (d : Dialect) (e : Expr) : Prop :=
  Written d (render e) e.yield e.startsWithOperator e.endsWithOperator

/-- A written text with an infix operator and an operand after it. -/
theorem append_link (hs : Written d s ws a b) (op : InfixOp) {e : Expr} (he : Renders d e) :
    Written d (s ++ " ".toList ++ op.symbol ++ " ".toList ++ render e)
      (ws ++ [op.symbol] ++ e.yield) a e.endsWithOperator :=
  (hs.append_blank (.of_isPunctuation op.isPunctuation_symbol (spelled?_quote_symbol d op)))
    |>.append_blank he

/-- A written text with the further operands of a chain after it. -/
theorem append_links (hs : Written d s ws a b) (p : InfixOp × Expr)
    (rest : List (InfixOp × Expr)) (h : ∀ q ∈ p :: rest, Renders d q.2) :
    Written d (s ++ renderLinks (p :: rest)) (ws ++ yieldLinks (p :: rest)) a
      (lastLinkEndsWithOperator (p :: rest)) := by
  induction rest generalizing s ws b p with
  | nil =>
    have hlink := hs.append_link p.1 (h p (by simp))
    simpa [renderLinks, yieldLinks, lastLinkEndsWithOperator] using hlink
  | cons q rest ih =>
    have hlink := hs.append_link p.1 (h p (by simp))
    have hrest := ih hlink q fun r hr => h r (List.mem_cons_of_mem p hr)
    have hrender : s ++ renderLinks (p :: q :: rest) =
        s ++ " ".toList ++ p.1.symbol ++ " ".toList ++ render p.2 ++ renderLinks (q :: rest) := by
      simp [renderLinks]
    have hyield : ws ++ yieldLinks (p :: q :: rest) =
        ws ++ [p.1.symbol] ++ p.2.yield ++ yieldLinks (q :: rest) := by
      simp [yieldLinks]
    rw [hrender, hyield]
    exact hrest

/-- A written text with a separator and a term after it. The separator is kept apart from an
operator before it. -/
theorem append_item (hs : Written d s ws a b) (separator : Separator) {e : Expr}
    (he : Renders d e) :
    Written d (s ++ gap separator b ++ render e) (ws ++ separator.words ++ e.yield) a
      e.endsWithOperator := by
  by_cases hspace : separator.isWhitespace = true
  · have hitem := hs.append_blank he
    have hgap : gap separator b = " ".toList := by rw [gap, if_pos hspace]
    have hwords : separator.words = [] := by rw [Separator.words, if_pos hspace]
    rw [hgap, hwords, List.append_nil]
    exact hitem
  · rw [Bool.not_eq_true] at hspace
    have hsymbol : Written d separator.symbol [separator.symbol] true true :=
      .of_isPunctuation (Separator.isPunctuation_symbol hspace) (spelled?_quote_symbol d separator)
    have hwords : separator.words = [separator.symbol] := by simp [Separator.words, hspace]
    have hbefore : Written d (s ++ (if b then " ".toList else []) ++ separator.symbol)
        (ws ++ [separator.symbol]) a true := by
      cases b with
      | true => exact hs.append_blank hsymbol
      | false =>
        -- without an operator before it the separator may touch the term
        rw [if_neg Bool.false_ne_true, List.append_nil]
        exact hs.append_punctuation hsymbol (Separator.isPunctuation_symbol hspace)
    have hitem := hbefore.append_blank he
    have hgap : s ++ gap separator b ++ render e =
        s ++ (if b then " ".toList else []) ++ separator.symbol ++ " ".toList ++ render e := by
      simp [gap, hspace]
    rw [hgap, hwords]
    exact hitem

/-- A written text that ends with a term, and the further terms of the sequence after it. -/
theorem append_items (separator : Separator) (e : Expr) (es : List Expr)
    (hs : Written d s ws a e.endsWithOperator) (h : ∀ t ∈ es, Renders d t) :
    Written d (s ++ renderTerms separator e.endsWithOperator es)
      (ws ++ yieldTerms separator es) a (lastTermEndsWithOperator (e :: es)) := by
  induction es generalizing s ws e with
  | nil => simpa [renderTerms, yieldTerms, lastTermEndsWithOperator] using hs
  | cons e' es ih =>
    have hitem := hs.append_item separator (h e' (by simp))
    have hrest := ih e' hitem fun t ht => h t (List.mem_cons_of_mem e' ht)
    simpa [renderTerms, yieldTerms, lastTermEndsWithOperator] using hrest

end Written

/-- A legible tree is rendered as a text with the words of the tree. -/
theorem Legible.renders {d : Dialect} {e : Expr} (h : Legible d e) : Written.Renders d e := by
  induction h with
  | identifier shape =>
    exact .of_isWord (isWord_of_isIdentifierText shape)
  | numeric shape =>
    exact .of_isWord (isWord_of_isNumericText shape)
  | literal allowed clear =>
    exact .of_literal allowed clear
  | @prefixed op operand h ih =>
    have hop : Written d op.symbol [op.symbol] true true :=
      .of_isPunctuation op.isPunctuation_symbol (spelled?_quote_symbol d op)
    unfold Written.Renders at ih ⊢
    rw [Expr.render, Expr.yield, Expr.startsWithOperator, Expr.endsWithOperator]
    -- a blank keeps the operator apart from one that starts its operand
    cases hstarts : operand.startsWithOperator with
    | true =>
      rw [if_pos rfl]
      exact hop.append_blank ih
    | false =>
      rw [if_neg Bool.false_ne_true, List.append_nil]
      rw [hstarts] at ih
      exact hop.punctuation_append ih op.isPunctuation_symbol
  | @postfixed op operand h bare ih =>
    have hop : Written d op.symbol [op.symbol] true true :=
      .of_isPunctuation op.isPunctuation_symbol (spelled?_quote_symbol d op)
    unfold Written.Renders at ih ⊢
    rw [bare] at ih
    rw [Expr.render, Expr.yield, Expr.startsWithOperator, Expr.endsWithOperator]
    exact ih.append_punctuation hop op.isPunctuation_symbol
  | @binary left right op hleft hright ihleft ihright =>
    have hlink := ihleft.append_link op ihright
    unfold Written.Renders
    rw [Expr.render, Expr.yield, Expr.startsWithOperator, Expr.endsWithOperator]
    rw [List.append_cons]
    exact hlink
  | @chain first rest h nonempty hrest ih ihrest =>
    obtain ⟨p, rest, rfl⟩ := List.exists_cons_of_ne_nil nonempty
    unfold Written.Renders
    rw [Expr.render, Expr.yield, Expr.startsWithOperator, Expr.endsWithOperator]
    exact ih.append_links p rest ihrest
  | @bracketed b inner kind h ih =>
    unfold Written.Renders
    rw [Expr.render, Expr.yield, Expr.startsWithOperator, Expr.endsWithOperator]
    · exact ih.bracketed kind
    all_goals
      intros
      contradiction
  | @sequence terms separator nonempty h ih =>
    obtain ⟨e, es, rfl⟩ := List.exists_cons_of_ne_nil nonempty
    unfold Written.Renders
    rw [Expr.render, Expr.yield, Expr.startsWithOperator, Expr.endsWithOperator]
    exact .append_items separator e es (ih e (by simp)) fun t ht => ih t (List.mem_cons_of_mem e ht)

end FlatExpr
