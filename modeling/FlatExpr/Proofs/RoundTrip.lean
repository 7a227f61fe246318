import FlatExpr.Proofs.Rendering

/-!
# Rendering a reading

Rendering a tree that was read and reading the result gives the tree back, under dialects of two
properties: `<` cannot open a bracket where a term is expected, and there are no prefix operators or
no postfix operators.

The trees that are read under such a dialect are legible: a postfix operator comes after a term that
starts with no operator, since there are none, and so ends with none. The rendering then has the
words of the source, so the phrase that was read is read again. For sequences by white space the
gaps count too, and the renderer writes one after every term but the last (`spacedItems_render`).
-/

namespace FlatExpr

open Lexeme

/-! ## Trees that are read are legible -/

/-- Every tree that is read as one of the phrases is legible. -/
def Reading.IsLegible (d : Dialect) (phrase : Reading Expr) : Prop :=
  ∀ {ws e ws'}, phrase ws e ws' → Legible d e

namespace Phrase

/-- What keeps the readings of a dialect legible. -/
structure Plain (d : Dialect) : Prop where
  /-- An angle does not open a bracket where a term is expected. -/
  angle : d.brackets.allows .angle = false ∨ d.infixes.allows .lt = true
  /-- Prefix and postfix operators do not occur together. -/
  operators : (∀ op, d.prefixes.allows op = false) ∨ ∀ op, d.postfixes.allows op = false

variable {d : Dialect} {operation operand : Reading Expr} {ws ws' : List Text} {e : Expr}

/-- Terms are legible, and without prefix operators they do not end with an operator. -/
theorem legible_term (hd : Plain d) (h : Reading.IsLegible d operation)
    (hterm : Term d operation ws e ws') :
    Legible d e ∧ ((∀ op, d.prefixes.allows op = false) → e.endsWithOperator = false) := by
  cases hterm with
  | identifier shape _ => exact ⟨.identifier shape, fun _ => rfl⟩
  | numeric shape _ => exact ⟨.numeric shape, fun _ => rfl⟩
  | literal hliteral =>
    cases hliteral with
    | mk allowed clear => exact ⟨.literal allowed clear, fun _ => rfl⟩
  | bracketed opens hbracketed =>
    cases hbracketed with
    | @mk b inner _ _ allowed inside =>
      refine ⟨.bracketed ?_ (h inside), fun _ => rfl⟩
      rintro rfl
      have hlt := opens rfl
      rcases hd.angle with hangle | hangle
      · rw [hangle] at allowed
        cases allowed
      · rw [hangle] at hlt
        cases hlt
  | @prefixed _ _ _ op lead hoperation =>
    refine ⟨h hoperation, ?_⟩
    intro hnone
    obtain ⟨_, -, hallowed⟩ := (Allowed.leading?_eq_some_iff _ _ _).1 lead
    rw [hnone op] at hallowed
    cases hallowed

/-- Operands are legible. -/
theorem legible_operand (hd : Plain d) (h : Reading.IsLegible d operation) :
    Reading.IsLegible d (Operand d operation) := by
  intro ws e ws' hoperand
  cases hoperand with
  | @mk _ ws' term hterm =>
    obtain ⟨hlegible, hends⟩ := legible_term hd h hterm
    cases hafter : postfixOp? d ws' with
    | none =>
      cases d.prefixes.leading? ws with
      | none => exact hlegible
      | some op => exact .prefixed hlegible
    | some op =>
      -- a postfix operator excludes prefix operators
      have hlead : d.postfixes.leading? ws' = some op := by
        rw [← hafter]
        exact (postfixOp?_cases d ws').resolve_right (by rw [hafter]; exact nofun)
      obtain ⟨_, -, hallowed⟩ := (Allowed.leading?_eq_some_iff _ _ _).1 hlead
      have hnone : ∀ op', d.prefixes.allows op' = false := by
        rcases hd.operators with hnone | hnone
        · exact hnone
        · rw [hnone op] at hallowed
          cases hallowed
      have hbefore : d.prefixes.leading? ws = none := by
        rw [Option.eq_none_iff_forall_ne_some]
        intro op' hop'
        obtain ⟨_, -, hallowed'⟩ := (Allowed.leading?_eq_some_iff _ _ _).1 hop'
        rw [hnone op'] at hallowed'
        cases hallowed'
      rw [hbefore]
      exact .postfixed hlegible (hends hnone)

/-- The operands of a chain are legible. -/
theorem legible_links (h : Reading.IsLegible d operand) {op : InfixOp}
    {rest : List (InfixOp × Expr)} (hlinks : Links d operand op ws rest ws') :
    ∀ p ∈ rest, Legible d p.2 := by
  induction hlinks with
  | last hoperand _ =>
    intro p hp
    obtain rfl := List.mem_singleton.1 hp
    exact h hoperand
  | more hoperand _ _ ih => exact List.forall_mem_cons.2 ⟨h hoperand, ih⟩

/-- The terms of a sequence are legible. -/
theorem legible_items (h : Reading.IsLegible d operand) {separator : Separator} {es : List Expr}
    (hitems : Items d operand separator ws es ws') : ∀ t ∈ es, Legible d t := by
  induction hitems with
  | last hoperand _ =>
    intro t ht
    obtain rfl := List.mem_singleton.1 ht
    exact h hoperand
  | more hoperand _ _ ih => exact List.forall_mem_cons.2 ⟨h hoperand, ih⟩

/-- Whatever node a run of legible operands becomes, it is legible. -/
theorem legible_ofRun {rest : List (InfixOp × Expr)} (he : Legible d e)
    (hrest : ∀ p ∈ rest, Legible d p.2) : Legible d (.ofRun e rest) := by
  match rest, hrest with
  | [], _ => exact he
  | [(op, right)], hrest => exact .binary he (hrest (op, right) (by simp))
  | p :: q :: rest, hrest => exact .chain he (List.cons_ne_nil _ _) hrest

/-- By induction on the levels of nesting, operations are legible. -/
theorem legible_operation (hd : Plain d) (levels : Nat) :
    Reading.IsLegible d (Operation d levels) := by
  induction levels with
  | zero => intro ws e ws' h; exact h.elim
  | succ levels ih =>
    intro ws e ws' hrun
    have hoperand : Reading.IsLegible d (Operand d (Operation d levels)) := legible_operand hd ih
    cases hrun with
    | single h _ _ => exact hoperand h
    | chain h _ hlinks => exact legible_ofRun (hoperand h) (legible_links hoperand hlinks)
    | sequence h _ _ _ hitems =>
      exact .sequence (List.cons_ne_nil _ _)
        (List.forall_mem_cons.2 ⟨hoperand h, legible_items hoperand hitems⟩)

/-- The terms of a sequence by white space are legible. -/
theorem legible_spacedItems (h : Reading.IsLegible d operand) {ts ts' : List (Option Text)}
    {es : List Expr} (hitems : SpacedItems d operand ts es ts') :
    es ≠ [] ∧ ∀ t ∈ es, Legible d t := by
  induction hitems with
  | last hleads _ =>
    refine ⟨List.cons_ne_nil _ _, ?_⟩
    intro t ht
    obtain rfl := List.mem_singleton.1 ht
    exact h hleads.phrase
  | more hleads _ _ _ ih =>
    exact ⟨List.cons_ne_nil _ _, List.forall_mem_cons.2 ⟨h hleads.phrase, ih.2⟩⟩

/-- Sequences of the first kind are legible. -/
theorem legible_sequence (hd : Plain d) {levels : Nat} :
    Reading.IsLegible d (Sequence d levels) := by
  intro ws e ws' hsequence
  have hoperation : Reading.IsLegible d (Operation d levels) := legible_operation hd levels
  cases hsequence with
  | whole h _ => exact hoperation h
  | single h => exact hoperation h
  | separated h _ _ _ hitems =>
    exact .sequence (List.cons_ne_nil _ _) (List.forall_mem_cons.2
      ⟨hoperation h, legible_items (legible_operand hd hoperation) hitems⟩)

end Phrase

/-! ## Gaps in renderings -/

/-- A written text does not start with a gap. -/
theorem Written.head?_tokens {d : Dialect} {t : Text} {ws : List Text} {a b : Bool}
    (h : Written d t ws a b) : ∃ w, (tokens d (texts t)).head? = some (some w) := by
  obtain ⟨c, hc, hedge⟩ := h.first
  -- the first lexeme starts as the text does
  obtain ⟨u, us, htexts, hu⟩ := exists_texts_cons hc
  obtain ⟨u', rfl⟩ : ∃ u', u = c :: u' := List.head?_eq_some_iff.1 hu
  have hwhite : Text.isWhite c = false := by
    rw [← Bool.not_eq_true, ← CharKind.of_eq_whitespace_iff]
    exact hedge.1
  have hblank := Text.isBlank_cons_of_not_white (t := u') hwhite
  exact ⟨c :: u', by simp [htexts, tokens, Scan.passed, Scan.emit, hblank]⟩

theorem Written.tokens_ne_nil {d : Dialect} {t : Text} {ws : List Text} {a b : Bool}
    (h : Written d t ws a b) : tokens d (texts t) ≠ [] := by
  obtain ⟨w, hw⟩ := h.head?_tokens
  intro hnil
  rw [hnil] at hw
  cases hw

namespace Phrase

open FlatExpr.Expr

variable {d : Dialect} {phrase operand : Reading Expr} {e : Expr} {es : List Expr}
  {ts taken ts' : List (Option Text)}

/-- The words of a rendered sequence by white space are those of its terms. -/
theorem reduceOption_tokens_render (hne : es ≠ []) (hes : ∀ t ∈ es, Legible d t) :
    (tokens d (texts (render (.sequence es .space)))).reduceOption = yieldTerms .space es := by
  have hterms : Legible d (.sequence es .space) := .sequence hne hes
  obtain ⟨e, es, rfl⟩ := List.exists_cons_of_ne_nil hne
  calc (tokens d (texts (render (.sequence (e :: es) .space)))).reduceOption
      = (Expr.sequence (e :: es) .space).yield := hterms.renders.words
    _ = yieldTerms .space (e :: es) := by
        simp [yield, yieldTerms, Separator.words, Separator.isWhitespace]

/-- The first term of a rendered sequence by white space is read as it was, and a gap follows it. -/
theorem leads_render (hspells : phrase.Spells) (he : Legible d e) (hne : es ≠ [])
    (hes : ∀ t ∈ es, Legible d t) (hphrase : phrase ts.reduceOption e ts'.reduceOption)
    (hrest : ts'.reduceOption = yieldTerms .space es) :
    Leads phrase (tokens d (texts (render (.sequence (e :: es) .space)))) e
      (tokens d (texts (render e)) ++ [none])
      (tokens d (texts (render (.sequence es .space)))) := by
  obtain ⟨e', es', rfl⟩ := List.exists_cons_of_ne_nil hne
  have hterms : Legible d (.sequence (e' :: es') .space) := .sequence hne hes
  have hrender : render (.sequence (e :: e' :: es') .space) =
      render e ++ " ".toList ++ render (.sequence (e' :: es') .space) := by
    simp [render, renderTerms, gap, Separator.isWhitespace]
  have hwords : (tokens d (texts (render (.sequence (e' :: es') .space)))).reduceOption =
      ts'.reduceOption := by
    rw [hrest, reduceOption_tokens_render hne hes]
  have hword : (tokens d (texts (render e))).reduceOption = e.yield := he.renders.words
  refine ⟨?_, ?_, ?_⟩
  · rw [hrender, he.renders.tokens_append_blank hterms.renders]
    simp
  · rw [hrender, he.renders.tokens_append_blank hterms.renders, List.reduceOption_append,
      List.reduceOption_cons_of_none, hword, hwords, ← (hspells hphrase).1]
    exact hphrase
  · obtain ⟨w, hw⟩ := hterms.renders.head?_tokens
    rw [hw]
    simp

/-- The terms of a sequence by white space are read from their rendering as they were. -/
theorem spacedItems_render (hspells : operand.Spells) (hlegible : Reading.IsLegible d operand)
    (hitems : SpacedItems d operand ts es ts') (hnil : ts' = []) :
    SpacedItems d operand (tokens d (texts (render (.sequence es .space)))) es [] := by
  induction hitems with
  | @last ts taken ts' e hleads _ =>
    subst hnil
    have hrender : render (.sequence [e] .space) = render e := by simp [render, renderTerms]
    have he := hlegible hleads.phrase
    have hwords : (tokens d (texts (render e))).reduceOption = ts.reduceOption := by
      rw [(hspells hleads.phrase).1, List.reduceOption_nil, List.append_nil]
      exact he.renders.words
    rw [hrender]
    refine .last ⟨(List.append_nil _).symm, ?_, by simp⟩ (.inl rfl)
    rw [hwords]
    exact hleads.phrase
  | @more ts taken ts' ts'' e es hleads _ _ hitems ih =>
    have he := hlegible hleads.phrase
    obtain ⟨hne, hes⟩ := legible_spacedItems hlegible hitems
    have hrest := spells_spacedItems hspells hitems
    rw [hnil, List.reduceOption_nil, List.append_nil] at hrest
    have hterms : Legible d (.sequence es .space) := .sequence hne hes
    exact .more (leads_render hspells he hne hes hleads.phrase hrest) (by simp)
      hterms.renders.tokens_ne_nil (ih hnil)

/-- A sequence by white space is read from its rendering as it was. -/
theorem spacedSequence_render (hd : Plain d) {levels : Nat}
    (hsequence : SpacedSequence d levels ts e []) :
    SpacedSequence d levels (tokens d (texts (render e))) e [] := by
  have hspells : Reading.Spells (Operation d levels) := spells_operation levels
  have hlegible : Reading.IsLegible d (Operation d levels) := legible_operation hd levels
  have hspells' : Reading.Spells (Operand d (Operation d levels)) := spells_operand hspells
  have hlegible' : Reading.IsLegible d (Operand d (Operation d levels)) :=
    legible_operand hd hlegible
  cases hsequence with
  | @mk taken ts' _ first es hleads hsingle hallowed _ _ hstop hitems =>
    have hfirst := hlegible hleads.phrase
    obtain ⟨hne, hes⟩ := legible_spacedItems hlegible' hitems
    have hrest := spells_spacedItems hspells' hitems
    rw [List.reduceOption_nil, List.append_nil] at hrest
    have hterms : Legible d (.sequence es .space) := .sequence hne hes
    have hwords : (tokens d (texts (render (.sequence es .space)))).reduceOption =
        ts'.reduceOption := by
      rw [hrest, reduceOption_tokens_render hne hes]
    exact .mk (leads_render hspells hfirst hne hes hleads.phrase hrest) hsingle hallowed (by simp)
      hterms.renders.tokens_ne_nil (by rw [hwords]; exact hstop)
      (spacedItems_render hspells' hlegible' hitems rfl)

end Phrase

/-! ## Sources -/

namespace Grammar

/-- Where `<` opens no bracket before a term and there are no prefix operators or no postfix
operators, rendering a tree that was read as a sequence and reading it again gives the tree. -/
theorem parseSequence_render (g : Grammar)
    (hangle : g.dialect.brackets.allows .angle = false ∨ g.dialect.infixes.allows .lt = true)
    (hoperators : (∀ op, g.dialect.prefixes.allows op = false) ∨
      ∀ op, g.dialect.postfixes.allows op = false)
    (source : Text) (e : Expr) (h : g.parseSequence source = .ok e) :
    g.parseSequence e.render = .ok e := by
  have hd : Phrase.Plain g.dialect := ⟨hangle, hoperators⟩
  rw [parseSequence_iff_phrase] at h ⊢
  rcases h with hsequence | hsequence
  · left
    -- the rendering has the words of the source
    have hwords : words g.dialect (texts e.render) = words g.dialect (texts source) := by
      rw [(Phrase.legible_sequence hd hsequence).renders.words,
        (Phrase.spells_wholeSequence _ hsequence).1, List.append_nil]
    rw [hwords]
    exact hsequence
  · right
    exact Phrase.spacedSequence_render hd hsequence

/-- Two terms with white space between them, of which the first has stacked prefix operators, under
the dialect without postfix operators. -/
theorem parseSequence_render_stacked :
    ({ dialect := { postfixes := .none } } : Grammar).parseSequence "- !a\n'x  y' ".toList =
      .ok (.sequence [.prefixed .minus (.prefixed .not (.identifier "a".toList)),
        .literal .single "x  y".toList] .space) ∧
    ({ dialect := { postfixes := .none } } : Grammar).parseSequence
        (Expr.sequence [.prefixed .minus (.prefixed .not (.identifier "a".toList)),
          .literal .single "x  y".toList] .space).render =
      .ok (.sequence [.prefixed .minus (.prefixed .not (.identifier "a".toList)),
        .literal .single "x  y".toList] .space) :=
  ⟨by decide +kernel, parseSequence_render { dialect := { postfixes := .none } } (.inr (by decide))
    (.inr fun _ => rfl) "- !a\n'x  y' ".toList _ (by decide +kernel)⟩

end Grammar

end FlatExpr
