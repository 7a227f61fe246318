import FlatExpr.Proofs.Rendering
import FlatExpr.Proofs.Shapes
import FlatExpr.Proofs.Spans

/-!
# Symbols that touch

The rendering of a tree that was read has the lexemes of the source, white space apart, unless two
symbols touch in it: punctuation next to punctuation is one lexeme. The renderer keeps a prefix
operator apart from the operator that starts its operand, and a separator from the operator that
ends the term before it. It keeps nothing else apart, so that symbols touch where a postfix operator
follows an operand that ends with one, or where an angle stands next to punctuation. `Expr.apart`
says of a tree whether that happens, and `Grammar.visible_render_iff` that nothing else matters.

Where two texts are put together, their lexemes are put together, or there is one lexeme less
(`Lexeme.texts_append_together`). `Spaced` carries both along the rendering: a text has the lexemes
that it should have, or fewer.
-/

namespace FlatExpr

namespace Lexeme

/-! ## Lexemes other than white space -/

/-- The texts of the lexemes of a source that are not white space. -/
def visible (source : Text) : List Text := (texts source).filter fun t => !Text.isBlank t

/-- A lexeme other than white space is visible. -/
theorem visible_of_texts {t : Text} (htexts : texts t = [t]) (hblank : Text.isBlank t = false) :
    visible t = [t] := by
  simp [visible, htexts, hblank]

theorem visible_append {s t : Text}
    (h : ∀ x ∈ s.getLast?, ∀ y ∈ t.head?, together x y = false) :
    visible (s ++ t) = visible s ++ visible t := by
  rw [visible, texts_append h, List.filter_append]
  rfl

theorem visible_append_blank {s t : Text} {x y : Char} (hx : s.getLast? = some x)
    (hy : t.head? = some y) (hkindx : CharKind.of x ≠ .whitespace)
    (hkindy : CharKind.of y ≠ .whitespace) :
    visible (s ++ " ".toList ++ t) = visible s ++ visible t := by
  have hblank : Text.isBlank " ".toList = true := by decide
  rw [visible, texts_append_blank hx hy hkindx hkindy, List.filter_append, List.filter_cons, hblank]
  rfl

/-- Where the boundary rule does not cut between two texts, the last lexeme of the first and the
first lexeme of the second become one. -/
theorem texts_append_together {s t u v : Text} {us vs : List Text} {x y : Char}
    (hs : texts s = us ++ [u]) (hx : u.getLast? = some x) (ht : texts t = v :: vs)
    (hy : v.head? = some y) (h : together x y = true) :
    texts (s ++ t) = us ++ (u ++ v) :: vs := by
  obtain ⟨hsource, hnil, hruns, hcuts⟩ := List.splitBy_eq_iff.1 hs
  obtain ⟨hsource', hnil', hruns', hcuts'⟩ := List.splitBy_eq_iff.1 ht
  have hu : u ≠ [] := fun hu => hnil (by simp [hu])
  have hv : v ≠ [] := fun hv => hnil' (by simp [hv])
  refine List.splitBy_eq_iff.2 ⟨?_, ?_, ?_, ?_⟩
  · rw [hsource, hsource']
    simp
  · intro hmem
    rcases List.mem_append.1 hmem with hmem | hmem
    · exact hnil (List.mem_append_left _ hmem)
    · rcases List.mem_cons.1 hmem with hmem | hmem
      · exact hu (List.append_eq_nil_iff.1 hmem.symm).1
      · exact hnil' (List.mem_cons_of_mem _ hmem)
  · intro m hm
    rcases List.mem_append.1 hm with hm | hm
    · exact hruns m (List.mem_append_left _ hm)
    · rcases List.mem_cons.1 hm with rfl | hm
      · refine List.isChain_append.2 ⟨hruns u (by simp), hruns' v (by simp), ?_⟩
        intro x' hx' y' hy'
        obtain rfl : x = x' := Option.some.inj (hx.symm.trans hx')
        obtain rfl : y = y' := Option.some.inj (hy.symm.trans hy')
        exact h
      · exact hruns' m (List.mem_cons_of_mem _ hm)
  · -- the new lexeme starts as the one and ends as the other
    obtain ⟨hinit, -, hjoin⟩ := List.isChain_append.1 hcuts
    obtain ⟨hjoin', hrest⟩ := List.isChain_cons.1 hcuts'
    refine List.isChain_append.2 ⟨hinit, List.isChain_cons.2 ⟨?_, hrest⟩, ?_⟩
    · intro w hw
      obtain ⟨_, hw', hcut⟩ := hjoin' w hw
      exact ⟨List.append_ne_nil_of_left_ne_nil hu v, hw',
        by rw [List.getLast_append_of_ne_nil _ hv]; exact hcut⟩
    · intro w hw w' hw'
      obtain rfl : u ++ v = w' := Option.some.inj hw'
      obtain ⟨hw', _, hcut⟩ := hjoin w hw u rfl
      exact ⟨hw', List.append_ne_nil_of_left_ne_nil hu v,
        by rw [List.head_append_of_ne_nil hu]; exact hcut⟩

/-- Where no two words touch, only white space and punctuation run on. -/
theorem together_iff_punctuation {x y : Char} (hwhite : CharKind.of y ≠ .whitespace)
    (hword : (CharKind.of x).isWord = false ∨ (CharKind.of y).isWord = false) :
    together x y = true ↔ CharKind.of x = .punctuation ∧ CharKind.of y = .punctuation := by
  rw [together_iff]
  constructor
  · rintro (⟨hx, hy⟩ | ⟨heq, hkind⟩)
    · rw [hx, hy] at hword
      simp at hword
    · have hy := hkind.resolve_left hwhite
      exact ⟨heq.trans hy, hy⟩
  · rintro ⟨hx, hy⟩
    exact .inr ⟨hx.trans hy.symm, .inr hy⟩

/-- Where punctuation touches punctuation there is one lexeme less. -/
theorem length_visible_append_lt {s t : Text} {x y : Char} (hx : s.getLast? = some x)
    (hy : t.head? = some y) (hkindx : CharKind.of x = .punctuation)
    (hkindy : CharKind.of y = .punctuation) :
    (visible (s ++ t)).length < (visible s).length + (visible t).length := by
  have htogether : together x y = true := by
    rw [together_iff, hkindx, hkindy]
    exact .inr ⟨rfl, .inr rfl⟩
  have hblank : ∀ {c : Char} {u : Text}, CharKind.of c = .punctuation → c ∈ u →
      Text.isBlank u = false := by
    intro c u hkind hc
    by_contra hu
    simp only [Bool.not_eq_false, Text.isBlank, Bool.and_eq_true, List.all_eq_true] at hu
    have hwhite := (CharKind.of_eq_whitespace_iff c).2 (hu.2 c hc)
    rw [hkind] at hwhite
    cases hwhite
  obtain ⟨us, u, hs, hu⟩ := exists_texts_concat hx
  obtain ⟨v, vs, ht, hv⟩ := exists_texts_cons hy
  have hboth := texts_append_together hs hu ht hv htogether
  have hmem := List.mem_of_getLast? hu
  have hleft := hblank hkindx hmem
  have hright := hblank hkindy (List.mem_of_head? hv)
  have hmerged := hblank hkindx (List.mem_append_left v hmem)
  simp only [visible, hs, ht, hboth, List.filter_append, List.filter_cons, hleft, hright, hmerged,
    Bool.not_false, if_true, List.length_append, List.length_cons, List.filter_nil,
    List.length_nil]
  omega

/-! ## The words of a source -/

/-- The texts are those that their concatenation is cut into. -/
def Lexed (ts : List Text) : Prop := texts ts.flatten = ts

namespace Lexed

variable {ts us : List Text}

theorem right (h : Lexed (ts ++ us)) : Lexed us := texts_flatten h

theorem left (h : Lexed (ts ++ us)) : Lexed ts := by
  obtain ⟨-, hnil, htogether, hcuts⟩ := List.splitBy_eq_iff.1 h
  refine List.splitBy_flatten ?_ ?_ (List.isChain_append.1 hcuts).1
  · exact fun hmem => hnil (List.mem_append_left us hmem)
  · exact fun t ht => htogether t (List.mem_append_left us ht)

theorem texts_head {t : Text} (h : Lexed (t :: ts)) : texts t = [t] := by
  have hhead : Lexed [t] := (show Lexed ([t] ++ ts) from h).left
  rw [Lexed, List.flatten_singleton] at hhead
  exact hhead

theorem filter_eq_visible (h : Lexed ts) :
    (ts.filter fun t => !Text.isBlank t) = visible ts.flatten := by
  rw [visible, h]

end Lexed

/-- By induction on the lexemes, each word is made up of the lexemes it stands for. Inside a literal
these are the lexemes that the pass has seen since the mark. -/
theorem flatMap_visible_passed (d : Dialect) (ts : List Text) :
    (Lexed ts → (words d ts).flatMap visible = ts.filter fun t => !Text.isBlank t) ∧
      ∀ q content, Lexed (content ++ ts) →
        ((Scan.inside q content.flatten).passed d ts ++
            ((Scan.inside q content.flatten).after d ts).pending).reduceOption.flatMap visible =
          (content ++ ts).filter fun t => !Text.isBlank t := by
  induction ts with
  | nil =>
    refine ⟨fun _ => rfl, fun q content h => ?_⟩
    rw [List.append_nil] at h ⊢
    rw [h.filter_eq_visible]
    simp [Scan.passed, Scan.pending]
  | cons t ts ih =>
    obtain ⟨ihoutside, ihinside⟩ := ih
    constructor
    · intro h
      have hrest : Lexed ts := (show Lexed ([t] ++ ts) from h).right
      cases hblank : Text.isBlank t with
      | true =>
        rw [words_cons_blank hblank, ihoutside hrest, List.filter_cons, hblank]
        rfl
      | false =>
        have ht : visible t = [t] := visible_of_texts h.texts_head hblank
        rw [List.filter_cons, hblank]
        cases hquote : d.quotes.spelled? t with
        | none =>
          rw [words_cons_word hblank hquote, List.flatMap_cons, ht, ihoutside hrest]
          rfl
        | some q =>
          obtain ⟨rfl, hallowed⟩ := (Allowed.spelled?_eq_some_iff _ _ _).1 hquote
          have hwords : words d (Vocabulary.symbol q :: ts) = _ := words_cons_quote hallowed ts
          have hinside := ihinside q [] hrest
          rw [List.flatten_nil, List.nil_append] at hinside
          rw [hwords, List.flatMap_cons, hinside]
          exact congrArg (· ++ _) ht
    · intro q content h
      have hsource : Lexed (content ++ [t] ++ ts) := by
        rw [List.append_assoc]
        exact h
      by_cases hquote : d.quotes.spelled? t = some q
      · have hblank : Text.isBlank t = false := by
          by_contra hblank
          rw [spelled?_quote_of_isBlank (by simpa using hblank)] at hquote
          cases hquote
        have ht : visible t = [t] := visible_of_texts h.right.texts_head hblank
        -- the mark ends the literal, and its text is the content
        have hrest : _ = _ := ihoutside hsource.right
        rw [words, tokens] at hrest
        rw [List.filter_append, List.filter_cons, hblank, h.left.filter_eq_visible, ← hrest]
        simp [Scan.passed, Scan.emit, Scan.next, hquote, ht]
      · have hrest := ihinside q (content ++ [t]) hsource
        rw [List.flatten_append, List.flatten_singleton, List.append_assoc,
          List.singleton_append] at hrest
        rw [← hrest]
        simp [Scan.passed, Scan.emit, Scan.next, hquote]

/-- The visible lexemes of a source are those of its words. -/
theorem flatMap_visible_words (d : Dialect) (source : Text) :
    (words d (texts source)).flatMap visible = visible source := by
  have hlexed : Lexed (texts source) := congrArg texts (List.flatten_splitBy together source)
  exact (flatMap_visible_passed d (texts source)).1 hlexed

end Lexeme

/-! ## Texts with the lexemes they should have -/

namespace Text

/-- Whether a text starts with punctuation. -/
def startsWithPunctuation (t : Text) : Bool := t.head?.any fun c => CharKind.of c == .punctuation

/-- Whether a text ends with punctuation. -/
def endsWithPunctuation (t : Text) : Bool := t.getLast?.any fun c => CharKind.of c == .punctuation

theorem endsWithPunctuation_append {t : Text} (s : Text) (h : t ≠ []) :
    endsWithPunctuation (s ++ t) = endsWithPunctuation t := by
  rw [endsWithPunctuation, List.getLast?_append_of_ne_nil s h, endsWithPunctuation]

end Text

open Lexeme

/-- A text that should have the visible lexemes `ws`: it has them if `apart` holds, and fewer
otherwise. It neither starts nor ends with white space. -/
structure Spaced (t : Text) (ws : List Text) (apart : Bool) : Prop where
  /-- What is apart is cut apart. -/
  visible_eq : apart = true → visible t = ws
  /-- What is not apart has merged. -/
  merged : apart = false → (visible t).length < ws.length
  /-- What the text starts with. -/
  first : ∃ c, t.head? = some c ∧ CharKind.of c ≠ .whitespace
  /-- What the text ends with. -/
  last : ∃ c, t.getLast? = some c ∧ CharKind.of c ≠ .whitespace

namespace Spaced

variable {s t : Text} {ws ws' : List Text} {p q : Bool}

theorem ne_nil (h : Spaced t ws p) : t ≠ [] := by
  obtain ⟨c, hc, -⟩ := h.first
  rintro rfl
  cases hc

theorem length_le (h : Spaced t ws p) : (visible t).length ≤ ws.length := by
  cases p with
  | true => rw [h.visible_eq rfl]
  | false => exact (h.merged rfl).le

/-- Two texts whose lexemes are put together, with a blank between them or none. -/
theorem of_visible_append (hs : Spaced s ws p) (ht : Spaced t ws' q) {u : Text}
    (hu : visible u = visible s ++ visible t) (hhead : u.head? = s.head?)
    (hlast : u.getLast? = t.getLast?) : Spaced u (ws ++ ws') (p && q) where
  visible_eq h := by
    rw [Bool.and_eq_true] at h
    rw [hu, hs.visible_eq h.1, ht.visible_eq h.2]
  merged h := by
    have hles := hs.length_le
    have hlet := ht.length_le
    rw [hu, List.length_append, List.length_append]
    rcases Bool.and_eq_false_iff.1 h with h | h
    · have hlt := hs.merged h
      omega
    · have hlt := ht.merged h
      omega
  first := by
    rw [hhead]
    exact hs.first
  last := by
    rw [hlast]
    exact ht.last

/-- Two texts with a blank between them. -/
theorem append_blank (hs : Spaced s ws p) (ht : Spaced t ws' q) :
    Spaced (s ++ " ".toList ++ t) (ws ++ ws') (p && q) := by
  obtain ⟨x, hx, hkindx⟩ := hs.last
  obtain ⟨y, hy, hkindy⟩ := ht.first
  refine of_visible_append hs ht (visible_append_blank hx hy hkindx hkindy) ?_ ?_
  · rw [List.append_assoc, List.head?_append_of_ne_nil _ hs.ne_nil]
  · exact List.getLast?_append_of_ne_nil _ ht.ne_nil

/-- Two texts side by side, where no two words touch: they are apart unless punctuation touches. -/
theorem append (hs : Spaced s ws p) (ht : Spaced t ws' q)
    (hword : ∀ x ∈ s.getLast?, ∀ y ∈ t.head?,
      (CharKind.of x).isWord = false ∨ (CharKind.of y).isWord = false) :
    Spaced (s ++ t) (ws ++ ws')
      (p && q && !(Text.endsWithPunctuation s && Text.startsWithPunctuation t)) := by
  obtain ⟨x, hx, -⟩ := hs.last
  obtain ⟨y, hy, hkindy⟩ := ht.first
  have hhead : (s ++ t).head? = s.head? := List.head?_append_of_ne_nil _ hs.ne_nil
  have hlast : (s ++ t).getLast? = t.getLast? := List.getLast?_append_of_ne_nil _ ht.ne_nil
  have hends : Text.endsWithPunctuation s = (CharKind.of x == .punctuation) := by
    rw [Text.endsWithPunctuation, hx, Option.any_some]
  have hstarts : Text.startsWithPunctuation t = (CharKind.of y == .punctuation) := by
    rw [Text.startsWithPunctuation, hy, Option.any_some]
  rw [hends, hstarts]
  by_cases htouch : CharKind.of x = .punctuation ∧ CharKind.of y = .punctuation
  · rw [htouch.1, htouch.2]
    have hlt := length_visible_append_lt hx hy htouch.1 htouch.2
    have hles := hs.length_le
    have hlet := ht.length_le
    refine ⟨?_, fun _ => ?_, hhead ▸ hs.first, hlast ▸ ht.last⟩
    · rw [Bool.and_eq_true]
      rintro ⟨-, h⟩
      cases h
    · rw [List.length_append]
      omega
  · have hcut : together x y = false := by
      rw [← Bool.not_eq_true, together_iff_punctuation hkindy (hword x hx y hy)]
      exact htouch
    have hclear : (CharKind.of x == .punctuation && CharKind.of y == .punctuation) = false := by
      rw [← Bool.not_eq_true, Bool.and_eq_true, beq_iff_eq, beq_iff_eq]
      exact htouch
    rw [hclear, Bool.not_false, Bool.and_true]
    refine of_visible_append hs ht (visible_append ?_) hhead hlast
    intro x' hx' y' hy'
    obtain rfl : x = x' := Option.some.inj (hx.symm.trans hx')
    obtain rfl : y = y' := Option.some.inj (hy.symm.trans hy')
    exact hcut

/-! ### Single symbols -/

/-- A text without white space has its own lexemes. -/
theorem of_kinds (hne : t ≠ []) (h : ∀ c ∈ t, CharKind.of c ≠ .whitespace) :
    Spaced t (visible t) true where
  visible_eq _ := rfl
  merged := nofun
  first := ⟨_, List.head?_eq_some_head hne, h _ (List.head_mem hne)⟩
  last := ⟨_, List.getLast?_eq_some_getLast hne, h _ (List.getLast_mem hne)⟩

/-- The symbol of an operator. -/
theorem of_isPunctuation (h : Text.isPunctuation t = true) : Spaced t (visible t) true := by
  obtain ⟨hne, hkind⟩ := (Text.isPunctuation_iff t).1 h
  exact of_kinds hne fun c hc => by rw [hkind c hc]; decide

/-- An operator after a text, which may touch the end of the text. -/
theorem append_symbol (hs : Spaced s ws p) (h : Text.isPunctuation t = true) :
    Spaced (s ++ t) (ws ++ visible t) (p && !Text.endsWithPunctuation s) := by
  obtain ⟨hne, hkind⟩ := (Text.isPunctuation_iff t).1 h
  have hstarts : Text.startsWithPunctuation t = true := by
    rw [Text.startsWithPunctuation, List.head?_eq_some_head hne, Option.any_some,
      hkind _ (List.head_mem hne)]
    rfl
  have hboth := hs.append (of_isPunctuation h) fun x _ y hy =>
    .inr (by rw [hkind y (List.mem_of_head? hy)]; rfl)
  rw [hstarts, Bool.and_true, Bool.and_true] at hboth
  exact hboth

/-- An operator before a text, which may touch the start of the text. -/
theorem symbol_append (h : Text.isPunctuation s = true) (ht : Spaced t ws q) :
    Spaced (s ++ t) (visible s ++ ws) (q && !Text.startsWithPunctuation t) := by
  obtain ⟨hne, hkind⟩ := (Text.isPunctuation_iff s).1 h
  have hends : Text.endsWithPunctuation s = true := by
    rw [Text.endsWithPunctuation, List.getLast?_eq_some_getLast hne, Option.any_some,
      hkind _ (List.getLast_mem hne)]
    rfl
  have hboth := (of_isPunctuation h).append ht fun x hx y _ =>
    .inl (by rw [hkind x (List.mem_of_getLast? hx)]; rfl)
  rw [hends, Bool.true_and, Bool.true_and] at hboth
  exact hboth

/-- A text in brackets, of which only angles may touch it. -/
theorem bracketed (h : Spaced t ws p) (b : Bracket) :
    Spaced (b.opening ++ t ++ b.closing) (visible b.opening ++ (ws ++ visible b.closing))
      (p && (b != .angle ||
        !(Text.startsWithPunctuation t || Text.endsWithPunctuation t))) := by
  by_cases hb : b = .angle
  · subst hb
    have hopened := symbol_append (s := Bracket.angle.opening) (by decide) h
    have hclosed := hopened.append_symbol (t := Bracket.angle.closing) (by decide)
    rw [Text.endsWithPunctuation_append _ h.ne_nil, List.append_assoc (visible _) ws] at hclosed
    have hapart : (p && (Bracket.angle != .angle ||
          !(Text.startsWithPunctuation t || Text.endsWithPunctuation t))) =
        (p && !Text.startsWithPunctuation t && !Text.endsWithPunctuation t) := by
      rw [Bool.not_or, Bool.and_assoc]
      rfl
    rw [hapart]
    exact hclosed
  · obtain ⟨⟨x, hx, hkindx⟩, ⟨y, hy, hkindy⟩⟩ := Bracket.symbols_eq hb
    have hsymbol : ∀ {c : Char}, CharKind.of c = .brackets → Spaced [c] (visible [c]) true := by
      intro c hc
      refine of_kinds (List.cons_ne_nil _ _) fun c' hc' => ?_
      obtain rfl := List.mem_singleton.1 hc'
      rw [hc]
      decide
    have hopened := (hsymbol hkindx).append h fun x' hx' y' _ => by
      obtain rfl : x = x' := Option.some.inj hx'
      exact .inl (by rw [hkindx]; rfl)
    have hclosed := hopened.append (hsymbol hkindy) fun x' _ y' hy' => by
      obtain rfl : y = y' := Option.some.inj hy'
      exact .inr (by rw [hkindy]; rfl)
    have hends : Text.endsWithPunctuation [x] = false := by
      rw [Text.endsWithPunctuation, List.getLast?_singleton, Option.any_some, hkindx]
      rfl
    have hstarts : Text.startsWithPunctuation [y] = false := by
      rw [Text.startsWithPunctuation, List.head?_singleton, Option.any_some, hkindy]
      rfl
    rw [hends, hstarts, Bool.false_and, Bool.and_false, Bool.not_false, Bool.and_true,
      Bool.and_true, Bool.and_true, Bool.true_and, List.append_assoc (visible _) ws] at hclosed
    rw [hx, hy, bne_iff_ne.2 hb, Bool.true_or, Bool.and_true]
    exact hclosed

/-- A literal, whatever its text. -/
theorem literal (quote : Quote) (value : Text) :
    Spaced (quote.symbol ++ value ++ quote.symbol)
      (visible quote.symbol ++ (visible value ++ visible quote.symbol)) true := by
  have hmark : Spaced quote.symbol (visible quote.symbol) true := by
    refine of_kinds (OneSpelling.symbol_ne_nil quote) fun c hc => ?_
    rw [(kind_of_mem_quote quote hc).2]
    decide
  have hblank : Text.isBlank quote.symbol = false := by cases quote <;> decide
  have hsymbol : visible quote.symbol = [quote.symbol] :=
    visible_of_texts (by cases quote <;> rfl) hblank
  refine ⟨fun _ => ?_, nofun, ?_, ?_⟩
  · rw [hsymbol, visible, texts_literal, List.filter_append, List.filter_cons, List.filter_cons,
      hblank]
    rfl
  · rw [List.append_assoc, List.head?_append_of_ne_nil _ hmark.ne_nil]
    exact hmark.first
  · rw [List.getLast?_append_of_ne_nil _ hmark.ne_nil]
    exact hmark.last

end Spaced

/-! ## Trees whose symbols are kept apart -/

namespace Expr

/-- Whether a separator that follows the tree does not touch punctuation at its end. -/
def clears (separator : Separator) (e : Expr) : Bool :=
  separator.isWhitespace || e.endsWithOperator || !Text.endsWithPunctuation e.render

mutual

/-- Whether no two symbols touch in the rendering of the tree. -/
def apart : Expr → Bool
  | .identifier _ | .numeric _ | .literal _ _ => true
  | .prefixed _ operand =>
    apart operand && (operand.startsWithOperator || !Text.startsWithPunctuation operand.render)
  | .postfixed operand _ => apart operand && !Text.endsWithPunctuation operand.render
  | .binary left _ right => apart left && apart right
  | .chain first rest => apart first && apartLinks rest
  | .bracketed bracket inner =>
    apart inner && (bracket != .angle ||
      !(Text.startsWithPunctuation inner.render || Text.endsWithPunctuation inner.render))
  | .sequence [] _ => true
  | .sequence (term :: terms) separator =>
    apart term && apartTerms separator (term.clears separator) terms

/-- Whether no two symbols touch in further operands of a chain. -/
def apartLinks : List (InfixOp × Expr) → Bool
  | [] => true
  | (_, operand) :: rest => apart operand && apartLinks rest

/-- Whether no two symbols touch in further terms of a sequence; `clear` says whether the separator
before the first of them touches nothing. -/
def apartTerms (separator : Separator) (clear : Bool) : List Expr → Bool
  | [] => true
  | term :: terms => clear && apart term && apartTerms separator (term.clears separator) terms

end

end Expr

namespace Spaced

open FlatExpr.Expr

variable {s : Text} {ws : List Text} {p : Bool}

/-- The rendering of a tree has the lexemes of its words, unless two of them touch. -/
abbrev Renders (e : Expr) : Prop := Spaced (render e) (e.yield.flatMap visible) e.apart

theorem renders_prefixed (op : PrefixOp) {operand : Expr} (h : Renders operand) :
    Renders (.prefixed op operand) := by
  unfold Renders
  rw [render, yield, apart, List.flatMap_cons]
  cases operand.startsWithOperator with
  | true =>
    have hboth := (of_isPunctuation op.isPunctuation_symbol).append_blank h
    rw [Bool.true_and] at hboth
    rw [if_pos rfl, Bool.true_or, Bool.and_true]
    exact hboth
  | false =>
    rw [if_neg Bool.false_ne_true, List.append_nil, Bool.false_or]
    exact symbol_append op.isPunctuation_symbol h

theorem renders_postfixed (op : PostfixOp) {operand : Expr} (h : Renders operand) :
    Renders (.postfixed operand op) := by
  unfold Renders
  rw [render, yield, apart, List.flatMap_append, List.flatMap_singleton]
  exact h.append_symbol op.isPunctuation_symbol

/-- A text with an infix operator and an operand after it. -/
theorem append_link (hs : Spaced s ws p) (op : InfixOp) {e : Expr} (he : Renders e) :
    Spaced (s ++ " ".toList ++ op.symbol ++ " ".toList ++ render e)
      (ws ++ (op.symbol :: e.yield).flatMap visible) (p && e.apart) := by
  have hlink := (hs.append_blank (of_isPunctuation op.isPunctuation_symbol)).append_blank he
  rw [Bool.and_true, List.append_assoc ws] at hlink
  exact hlink

/-- A text with the further operands of a chain after it. -/
theorem append_links (hs : Spaced s ws p) (rest : List (InfixOp × Expr))
    (h : ∀ link ∈ rest, Renders link.2) :
    Spaced (s ++ renderLinks rest) (ws ++ (yieldLinks rest).flatMap visible)
      (p && apartLinks rest) := by
  induction rest generalizing s ws p with
  | nil => simpa [renderLinks, yieldLinks, apartLinks] using hs
  | cons link rest ih =>
    have hlink := hs.append_link link.1 (h link (by simp))
    have hrest := ih hlink fun link' hlink' => h link' (List.mem_cons_of_mem link hlink')
    have hrender : s ++ renderLinks (link :: rest) =
        s ++ " ".toList ++ link.1.symbol ++ " ".toList ++ render link.2 ++ renderLinks rest := by
      simp [renderLinks]
    have hyield : ws ++ (yieldLinks (link :: rest)).flatMap visible =
        ws ++ (link.1.symbol :: link.2.yield).flatMap visible ++
          (yieldLinks rest).flatMap visible := by
      simp [yieldLinks]
    rw [hrender, hyield, apartLinks, ← Bool.and_assoc]
    exact hrest

/-- A text that ends as a term does, with a separator and the next term after it. -/
theorem append_item (hs : Spaced s ws p) (separator : Separator) {e e' : Expr}
    (hends : Text.endsWithPunctuation s = Text.endsWithPunctuation e.render) (he' : Renders e') :
    Spaced (s ++ gap separator e.endsWithOperator ++ render e')
      (ws ++ (separator.words ++ e'.yield).flatMap visible)
      (p && e.clears separator && e'.apart) := by
  cases hspace : separator.isWhitespace with
  | true =>
    have hgap : gap separator e.endsWithOperator = " ".toList := by rw [gap, if_pos hspace]
    have hwords : separator.words = [] := by rw [Separator.words, if_pos hspace]
    rw [hgap, hwords, List.nil_append, clears, hspace, Bool.true_or, Bool.true_or, Bool.and_true]
    exact hs.append_blank he'
  | false =>
    have hsymbol := Separator.isPunctuation_symbol hspace
    have hwords : separator.words = [separator.symbol] := by simp [Separator.words, hspace]
    have hgap : s ++ gap separator e.endsWithOperator ++ render e' =
        s ++ (if e.endsWithOperator then " ".toList else []) ++ separator.symbol ++ " ".toList ++
          render e' := by
      simp [gap, hspace]
    have hbefore : Spaced (s ++ (if e.endsWithOperator then " ".toList else []) ++
        separator.symbol) (ws ++ visible separator.symbol) (p && e.clears separator) := by
      rw [clears, hspace, Bool.false_or]
      cases e.endsWithOperator with
      | true =>
        have hboth := hs.append_blank (of_isPunctuation hsymbol)
        rw [Bool.true_or]
        exact hboth
      | false =>
        -- nothing keeps the separator from touching the term
        rw [if_neg Bool.false_ne_true, List.append_nil, Bool.false_or, ← hends]
        exact hs.append_symbol hsymbol
    rw [hgap, hwords, List.flatMap_append, List.flatMap_singleton, ← List.append_assoc]
    exact hbefore.append_blank he'

/-- A text that ends as a term does, with the further terms of the sequence after it. -/
theorem append_items (separator : Separator) (e : Expr) (es : List Expr) (hs : Spaced s ws p)
    (hends : Text.endsWithPunctuation s = Text.endsWithPunctuation e.render)
    (h : ∀ t ∈ es, Renders t) :
    Spaced (s ++ renderTerms separator e.endsWithOperator es)
      (ws ++ (yieldTerms separator es).flatMap visible)
      (p && apartTerms separator (e.clears separator) es) := by
  induction es generalizing s ws p e with
  | nil => simpa [renderTerms, yieldTerms, apartTerms] using hs
  | cons e' es ih =>
    have he' : Renders e' := h e' (by simp)
    have hitem := hs.append_item separator hends he'
    have hends' := Text.endsWithPunctuation_append (s ++ gap separator e.endsWithOperator)
      he'.ne_nil
    have hrest := ih e' hitem hends' fun t ht => h t (List.mem_cons_of_mem e' ht)
    have hrender : s ++ renderTerms separator e.endsWithOperator (e' :: es) =
        s ++ gap separator e.endsWithOperator ++ render e' ++
          renderTerms separator e'.endsWithOperator es := by
      simp [renderTerms]
    have hyield : ws ++ (yieldTerms separator (e' :: es)).flatMap visible =
        ws ++ (separator.words ++ e'.yield).flatMap visible ++
          (yieldTerms separator es).flatMap visible := by
      simp [yieldTerms]
    rw [hrender, hyield, apartTerms, ← Bool.and_assoc, ← Bool.and_assoc]
    exact hrest

theorem renders_sequence (separator : Separator) {terms : List Expr} (hne : terms ≠ [])
    (h : ∀ t ∈ terms, Renders t) : Renders (.sequence terms separator) := by
  obtain ⟨e, es, rfl⟩ := List.exists_cons_of_ne_nil hne
  unfold Renders
  rw [render, yield, apart, List.flatMap_append]
  exact append_items separator e es (h e (by simp)) rfl fun t ht => h t (List.mem_cons_of_mem e ht)

end Spaced

namespace Shape

open Spaced

variable {d : Dialect}

/-- A name or a number is one lexeme. -/
theorem renders_of_isWord {t : Text} (h : Text.IsWord t) : Spaced t ([t].flatMap visible) true := by
  rw [List.flatMap_singleton]
  refine of_kinds h.1 fun c hc hwhite => ?_
  have hword := h.2 c hc
  rw [hwhite] at hword
  cases hword

mutual

theorem Term.renders : ∀ {e : Expr}, Term d e → Renders e
  | _, .identifier shape _ => by
    unfold Renders
    rw [Expr.render, Expr.yield, Expr.apart]
    exact renders_of_isWord (isWord_of_isIdentifierText shape)
  | _, .numeric shape _ => by
    unfold Renders
    rw [Expr.render, Expr.yield, Expr.apart]
    exact renders_of_isWord (isWord_of_isNumericText shape)
  | _, .literal _ _ => by
    unfold Renders
    rw [Expr.render, Expr.yield, Expr.apart, List.flatMap_cons, List.flatMap_cons,
      List.flatMap_singleton]
    exact literal _ _
  | _, .bracketed _ inside => by
    unfold Renders
    rw [Expr.render, Expr.yield, Expr.apart, List.flatMap_cons, List.flatMap_append,
      List.flatMap_singleton]
    exact inside.renders.bracketed _

theorem Head.renders : ∀ {e : Expr}, Head d e → Renders e
  | _, .bare h => h.renders
  | _, .prefixed _ h => renders_prefixed _ h.renders
  | _, .stacked _ h _ => renders_prefixed _ h.renders

theorem Operand.renders : ∀ {e : Expr}, Operand d e → Renders e
  | _, .bare h => h.renders
  | _, .postfixed _ h => renders_postfixed _ h.renders

theorem Run.renders : ∀ {e : Expr}, Run d e → Renders e
  | _, .single h => h.renders
  | _, .binary hleft _ hright => by
    unfold Renders
    rw [Expr.render, Expr.yield, Expr.apart, List.flatMap_append]
    exact hleft.renders.append_link _ hright.renders
  | _, .chain h _ _ hrest => by
    unfold Renders
    rw [Expr.render, Expr.yield, Expr.apart, List.flatMap_append]
    exact h.renders.append_links _ fun p hp => (hrest p hp).renders

theorem Operation.renders : ∀ {e : Expr}, Operation d e → Renders e
  | _, .run h => h.renders
  | _, .sequence long _ _ h =>
    renders_sequence _ (List.length_pos_iff.1 (by omega)) fun t ht => (h t ht).renders

end

theorem Sequence.renders {e : Expr} (h : Sequence d e) : Renders e := by
  cases h with
  | operation h => exact h.renders
  | terms h _ _ hrest =>
    exact renders_sequence _ (List.cons_ne_nil _ _)
      (List.forall_mem_cons.2 ⟨h.renders, fun t ht => (hrest t ht).renders⟩)

end Shape

/-! ## Sources -/

namespace Grammar

/-- The rendering of a tree that was read has no more lexemes than the source, white space apart,
and it has the lexemes of the source exactly when no two symbols touch in it. -/
theorem visible_render_iff (g : Grammar) (source : Text) (e : Expr)
    (h : g.parseSequence source = .ok e) :
    (visible e.render).length ≤ (visible source).length ∧
      (visible e.render = visible source ↔ e.apart = true) := by
  have hrenders := (shape_of_parseSequence h).renders
  have hsource : e.yield.flatMap visible = visible source := by
    rw [← words_of_parseSequence h]
    exact flatMap_visible_words g.dialect source
  unfold Spaced.Renders at hrenders
  rw [hsource] at hrenders
  refine ⟨hrenders.length_le, ?_, hrenders.visible_eq⟩
  intro heq
  by_contra hapart
  have hlt := hrenders.merged (by simpa using hapart)
  rw [heq] at hlt
  exact absurd hlt (Nat.lt_irrefl _)

/-- A prefix operator is kept apart from the one after it, and the rendering has the lexemes of the
source. -/
theorem visible_render_stacked :
    ({} : Grammar).parseSequence "-(b ,  c) - - a ++".toList =
      .ok (.binary (.prefixed .minus (.bracketed .parenthesis (.sequence [.identifier "b".toList,
        .identifier "c".toList] .comma))) .minus
        (.postfixed (.prefixed .minus (.identifier "a".toList)) .plus2)) ∧
    visible (Expr.binary (.prefixed .minus (.bracketed .parenthesis (.sequence
        [.identifier "b".toList, .identifier "c".toList] .comma))) .minus
        (.postfixed (.prefixed .minus (.identifier "a".toList)) .plus2)).render =
      visible "-(b ,  c) - - a ++".toList :=
  have h : ({} : Grammar).parseSequence "-(b ,  c) - - a ++".toList =
      .ok (.binary (.prefixed .minus (.bracketed .parenthesis (.sequence [.identifier "b".toList,
        .identifier "c".toList] .comma))) .minus
        (.postfixed (.prefixed .minus (.identifier "a".toList)) .plus2)) := by decide +kernel
  ⟨h, (visible_render_iff {} _ _ h).2.2 (by decide +kernel)⟩

/-- A postfix operator is not kept apart from the one that ends its operand: `++` and `--` become
one lexeme. -/
theorem visible_render_merged :
    ({} : Grammar).parseSequence "- - a ++ --".toList =
      .ok (.postfixed (.prefixed .minus (.postfixed (.prefixed .minus (.identifier "a".toList))
        .plus2)) .minus2) ∧
    Expr.render (.postfixed (.prefixed .minus (.postfixed (.prefixed .minus
      (.identifier "a".toList)) .plus2)) .minus2) = "- -a++--".toList ∧
    visible "- -a++--".toList ≠ visible "- - a ++ --".toList := by
  refine ⟨?_, ?_, ?_⟩
  all_goals decide +kernel

end Grammar

end FlatExpr
