import Mathlib.Data.List.DropRight
import FlatExpr.Proofs.Yield

/-!
# Spacing

What a source means does not depend on its spacing. All entry points but the one for sequences see
the words of a source and nothing else, so two sources with the same words are read alike. For
sequences the gaps between the words count too, since a gap may be a separator; but how a gap is
written does not count, nor do the gaps at the two ends of a source (`spacedSequence_trimGaps`).
-/

namespace FlatExpr

/-- The tokens without the gaps at the two ends. -/
def trimGaps (ts : List (Option Text)) : List (Option Text) :=
  (ts.dropWhile Option.isNone).rdropWhile Option.isNone

namespace Phrase

variable {d : Dialect} {phrase operand : Reading Expr} {levels : Nat} {e : Expr}
  {ts taken ts' : List (Option Text)} {es : List Expr}

/-! ## Gaps at the start -/

/-- A phrase takes the gap before it along with its words. -/
theorem leads_cons_gap : Leads phrase (none :: ts) e taken ts' ↔
    ∃ taken', taken = none :: taken' ∧ Leads phrase ts e taken' ts' := by
  constructor
  · intro hleads
    match taken, hleads with
    | [], hleads =>
      -- then the rest would start with the gap
      exfalso
      have hsplit : none :: ts = ts' := hleads.split
      exact hleads.settled (by rw [← hsplit]; rfl)
    | t :: taken', hleads =>
      obtain ⟨rfl, hsplit⟩ := List.cons.inj hleads.split
      exact ⟨taken', rfl, hsplit, hleads.phrase, hleads.settled⟩
  · rintro ⟨taken', rfl, hleads⟩
    exact ⟨by rw [hleads.split]; rfl, hleads.phrase, hleads.settled⟩

/-- What a phrase takes is more than gaps. -/
theorem Leads.taken_ne_nil (hleads : Leads phrase ts e taken ts') (h : phrase.Spells) :
    taken ≠ [] := by
  rintro rfl
  obtain ⟨hwords, hne⟩ := h hleads.phrase
  have hsplit : ts = ts' := hleads.split
  rw [hsplit] at hwords
  exact hne (List.append_left_eq_self.1 hwords.symm)

/-- A gap before a sequence by white space does not matter. -/
theorem spacedSequence_cons_gap :
    SpacedSequence d levels (none :: ts) e ts' ↔ SpacedSequence d levels ts e ts' := by
  have hspells : Reading.Spells (Operation d levels) := spells_operation levels
  constructor
  · intro h
    cases h with
    | mk hleads hsingle hallowed hgap hcontinues hstop hitems =>
      obtain ⟨taken, rfl, hleads'⟩ := leads_cons_gap.1 hleads
      rw [List.getLast?_cons_of_ne_nil (hleads'.taken_ne_nil hspells)] at hgap
      exact .mk hleads' hsingle hallowed hgap hcontinues hstop hitems
  · intro h
    cases h with
    | mk hleads hsingle hallowed hgap hcontinues hstop hitems =>
      refine .mk (leads_cons_gap.2 ⟨_, rfl, hleads⟩) hsingle hallowed ?_ hcontinues hstop
        hitems
      rw [List.getLast?_cons_of_ne_nil (hleads.taken_ne_nil hspells)]
      exact hgap

/-! ## Gaps at the end -/

/-- A gap after the words that follow a phrase does not matter to the phrase. -/
theorem leads_concat_gap (hne : ts' ≠ []) :
    Leads phrase (ts ++ [none]) e taken (ts' ++ [none]) ↔ Leads phrase ts e taken ts' := by
  have hhead : (ts' ++ [none]).head? = ts'.head? := List.head?_append_of_ne_nil ts' hne
  constructor
  · intro hleads
    refine ⟨?_, ?_, by rw [← hhead]; exact hleads.settled⟩
    · have hsplit := hleads.split
      rw [← List.append_assoc] at hsplit
      exact List.append_cancel_right hsplit
    · have hphrase := hleads.phrase
      rw [List.reduceOption_append, List.reduceOption_append] at hphrase
      simpa using hphrase
  · intro hleads
    refine ⟨by rw [hleads.split, List.append_assoc], ?_, by rw [hhead]; exact hleads.settled⟩
    rw [List.reduceOption_append, List.reduceOption_append]
    simpa using hleads.phrase

/-- A gap at the end of a source does not matter to the last phrase in it. -/
theorem leads_concat_gap_nil :
    Leads phrase (ts ++ [none]) e (ts ++ [none]) [] ↔ Leads phrase ts e ts [] := by
  have hwords : (ts ++ [none]).reduceOption = ts.reduceOption := by
    rw [List.reduceOption_append]
    exact List.append_nil _
  constructor
  · intro hleads
    exact ⟨(List.append_nil ts).symm, by rw [← hwords]; exact hleads.phrase, hleads.settled⟩
  · intro hleads
    exact ⟨(List.append_nil _).symm, by rw [hwords]; exact hleads.phrase, hleads.settled⟩

/-- Before a gap at the end of a source the rest of a phrase is empty or ends in that gap. -/
theorem Leads.rest_concat_gap (hleads : Leads phrase (ts ++ [none]) e taken ts') (hne : ts' ≠ []) :
    ∃ us, us ≠ [] ∧ ts' = us ++ [none] := by
  -- the last token is the gap, and it is not the only one of the rest
  obtain ⟨us, t, rfl⟩ := List.eq_nil_or_concat' ts' |>.resolve_left hne
  have hsplit := hleads.split
  rw [← List.append_assoc] at hsplit
  obtain ⟨-, ht⟩ := List.append_inj' hsplit rfl
  obtain rfl : none = t := List.singleton_inj.1 ht
  refine ⟨us, ?_, rfl⟩
  rintro rfl
  exact hleads.settled rfl

/-- A gap after the last term of a sequence by white space may be taken away. -/
theorem SpacedItems.of_concat_gap {us : List (Option Text)} (h : SpacedItems d operand us es ts')
    (hnil : ts' = []) (hus : us = ts ++ [none]) : SpacedItems d operand ts es [] := by
  induction h generalizing ts with
  | @last us taken ts' e hleads hstop =>
    subst hnil hus
    have hsplit : taken = ts ++ [none] := by rw [hleads.split, List.append_nil]
    rw [hsplit] at hleads
    exact .last (leads_concat_gap_nil.1 hleads) (.inl rfl)
  | @more us taken us' ts' e es hleads hgap hcontinues _ ih =>
    subst hus
    obtain ⟨rest, hne, rfl⟩ := hleads.rest_concat_gap hcontinues
    exact .more ((leads_concat_gap hne).1 hleads) hgap hne (ih hnil rfl)

/-- A gap after the last term of a sequence by white space may be added. -/
theorem SpacedItems.concat_gap (h : SpacedItems d operand ts es ts') (hnil : ts' = []) :
    SpacedItems d operand (ts ++ [none]) es [] := by
  induction h with
  | @last ts taken ts' e hleads hstop =>
    subst hnil
    have hsplit : taken = ts := by rw [hleads.split, List.append_nil]
    rw [hsplit] at hleads
    exact .last (leads_concat_gap_nil.2 hleads) (.inl rfl)
  | @more ts taken us ts' e es hleads hgap hcontinues _ ih =>
    exact .more ((leads_concat_gap hcontinues).2 hleads) hgap (by simp) (ih hnil)

/-- A gap after a sequence by white space does not matter. -/
theorem spacedSequence_concat_gap :
    SpacedSequence d levels (ts ++ [none]) e [] ↔ SpacedSequence d levels ts e [] := by
  constructor
  · intro h
    cases h with
    | mk hleads hsingle hallowed hgap hcontinues hstop hitems =>
      obtain ⟨rest, hne, rfl⟩ := hleads.rest_concat_gap hcontinues
      rw [List.reduceOption_append] at hstop
      exact .mk ((leads_concat_gap hne).1 hleads) hsingle hallowed hgap hne (by simpa using hstop)
        (hitems.of_concat_gap rfl rfl)
  · intro h
    cases h with
    | mk hleads hsingle hallowed hgap hcontinues hstop hitems =>
      refine .mk ((leads_concat_gap hcontinues).2 hleads) hsingle hallowed hgap (by simp) ?_
        (hitems.concat_gap rfl)
      rw [List.reduceOption_append]
      simpa using hstop

/-! ## Trimmed tokens -/

/-- The gaps at the two ends of a source do not matter to a sequence by white space. -/
theorem spacedSequence_trimGaps :
    SpacedSequence d levels (trimGaps ts) e [] ↔ SpacedSequence d levels ts e [] := by
  have hstart : SpacedSequence d levels (ts.dropWhile Option.isNone) e [] ↔
      SpacedSequence d levels ts e [] := by
    induction ts with
    | nil => exact Iff.rfl
    | cons t ts ih =>
      cases t with
      | none => exact ih.trans spacedSequence_cons_gap.symm
      | some t => exact Iff.rfl
  have hend : ∀ us : List (Option Text),
      SpacedSequence d levels (us.rdropWhile Option.isNone) e [] ↔
        SpacedSequence d levels us e [] := by
    intro us
    induction us using List.reverseRecOn with
    | nil => exact Iff.rfl
    | append_singleton us t ih =>
      cases t with
      | none =>
        rw [List.rdropWhile_concat_pos _ _ _ rfl]
        exact ih.trans spacedSequence_concat_gap.symm
      | some t => rw [List.rdropWhile_concat_neg _ _ _ (by simp)]
  exact (hend _).trans hstart

end Phrase

/-- Trimming takes away no word. -/
theorem reduceOption_trimGaps (ts : List (Option Text)) :
    (trimGaps ts).reduceOption = ts.reduceOption := by
  have hstart : (ts.dropWhile Option.isNone).reduceOption = ts.reduceOption := by
    induction ts with
    | nil => rfl
    | cons t ts ih =>
      cases t with
      | none => exact ih
      | some t => rfl
  have hend : ∀ us : List (Option Text),
      (us.rdropWhile Option.isNone).reduceOption = us.reduceOption := by
    intro us
    induction us using List.reverseRecOn with
    | nil => rfl
    | append_singleton us t ih =>
      cases t with
      | none =>
        rw [List.rdropWhile_concat_pos _ _ _ rfl, ih, List.reduceOption_append]
        exact (List.append_nil _).symm
      | some t => rw [List.rdropWhile_concat_neg _ _ _ (by simp)]
  exact (hend _).trans hstart

/-! ## Sources -/

namespace Grammar

/-- What a source means does not depend on its spacing. Sources with the same words, that is, which
differ in white space outside literals only, are read alike, except as sequences; as such they are
read alike if they have gaps at the same places, not counting those at the two ends. -/
theorem parse_eq_of_same_words (g : Grammar) (s s' : Text) :
    (words g.dialect (Lexeme.texts s) = words g.dialect (Lexeme.texts s') →
      (∀ e, g.parseExpression s = .ok e ↔ g.parseExpression s' = .ok e) ∧
      (∀ e, g.parseTerm s = .ok e ↔ g.parseTerm s' = .ok e) ∧
      (∀ es, g.parseTerms s = .ok es ↔ g.parseTerms s' = .ok es) ∧
      (∀ es, g.parseExpressions s = .ok es ↔ g.parseExpressions s' = .ok es)) ∧
    (trimGaps (tokens g.dialect (Lexeme.texts s)) =
        trimGaps (tokens g.dialect (Lexeme.texts s')) →
      ∀ e, g.parseSequence s = .ok e ↔ g.parseSequence s' = .ok e) := by
  constructor
  · intro hwords
    refine ⟨?_, ?_, ?_, ?_⟩
    · intro e
      unfold parseExpression
      rw [parseWhole_iff_phrase (reads_operation g 0), parseWhole_iff_phrase (reads_operation g 0),
        hwords]
    · intro e
      unfold parseTerm
      rw [parseWhole_iff_phrase (reads_term g 0), parseWhole_iff_phrase (reads_term g 0), hwords]
    · intro es
      unfold parseTerms
      rw [parseMany_iff_phrases (reads_term g 0), parseMany_iff_phrases (reads_term g 0), hwords]
    · intro es
      unfold parseExpressions
      rw [parseMany_iff_phrases (reads_operation g 0), parseMany_iff_phrases (reads_operation g 0),
        hwords]
  · intro htokens e
    have hwords : words g.dialect (Lexeme.texts s) = words g.dialect (Lexeme.texts s') := by
      unfold words
      rw [← reduceOption_trimGaps, htokens, reduceOption_trimGaps]
    rw [parseSequence_iff_phrase, parseSequence_iff_phrase, hwords,
      ← Phrase.spacedSequence_trimGaps, htokens, Phrase.spacedSequence_trimGaps]

/-- Spaces around an operator and before a literal, and other spaces between the terms of a
sequence: the two sources have the same words, or gaps at the same places, and are read as the same
tree. -/
theorem parse_eq_of_same_words_quoted :
    (words .full (Lexeme.texts "-a+ 'x  y'".toList) =
        words .full (Lexeme.texts "\n- a\t+'x  y' ".toList) ∧
      ({} : Grammar).parseExpression "-a+ 'x  y'".toList =
        .ok (.binary (.prefixed .minus (.identifier "a".toList)) .plus
          (.literal .single "x  y".toList)) ∧
      ({} : Grammar).parseExpression "\n- a\t+'x  y' ".toList =
        .ok (.binary (.prefixed .minus (.identifier "a".toList)) .plus
          (.literal .single "x  y".toList))) ∧
    (trimGaps (tokens .full (Lexeme.texts "a 'x  y' b".toList)) =
        trimGaps (tokens .full (Lexeme.texts " a\n'x  y' \t b ".toList)) ∧
      ({} : Grammar).parseSequence "a 'x  y' b".toList =
        .ok (.sequence [.identifier "a".toList, .literal .single "x  y".toList,
          .identifier "b".toList] .space) ∧
      ({} : Grammar).parseSequence " a\n'x  y' \t b ".toList =
        .ok (.sequence [.identifier "a".toList, .literal .single "x  y".toList,
          .identifier "b".toList] .space)) := by
  have hwords : words .full (Lexeme.texts "-a+ 'x  y'".toList) =
      words .full (Lexeme.texts "\n- a\t+'x  y' ".toList) := by decide
  have hgaps : trimGaps (tokens .full (Lexeme.texts "a 'x  y' b".toList)) =
      trimGaps (tokens .full (Lexeme.texts " a\n'x  y' \t b ".toList)) := by decide
  have hexpression : ({} : Grammar).parseExpression "-a+ 'x  y'".toList =
      .ok (.binary (.prefixed .minus (.identifier "a".toList)) .plus
        (.literal .single "x  y".toList)) := by decide +kernel
  have hsequence : ({} : Grammar).parseSequence "a 'x  y' b".toList =
      .ok (.sequence [.identifier "a".toList, .literal .single "x  y".toList,
        .identifier "b".toList] .space) := by decide +kernel
  exact ⟨⟨hwords, hexpression, (((parse_eq_of_same_words {} _ _).1 hwords).1 _).1 hexpression⟩,
    hgaps, hsequence, ((parse_eq_of_same_words {} _ _).2 hgaps _).1 hsequence⟩

end Grammar

end FlatExpr
