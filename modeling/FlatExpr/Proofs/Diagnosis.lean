import FlatExpr.Proofs.Failures
import FlatExpr.Proofs.Spans

/-!
# Disabled symbols

A symbol that no allow-list admits is reported as disallowed, in the first category that has it;
any other lexeme that does not fit is unexpected or left over. The report goes by a table of
verdicts, and the categories of lexemes by a chain of tests. The two agree on every text under every
dialect (`Lexeme.disallowedCategory_eq_some_iff`), and every error of a reading goes through the
report (`Grammar.diagnosed_of_fails`).
-/

namespace FlatExpr

/-! ## Vocabularies that have a text -/

/-- Whether the vocabulary has the text as a spelling of one of its members. -/
def Vocabulary.knows (α : Type) [Vocabulary α] (t : Text) : Bool :=
  (members : List α).any fun a => (spellings a).contains t

open Vocabulary in
/-- The categories that have a text as a symbol, in the order of the vocabularies, whether or not a
dialect allows the symbol. -/
def Text.categories (t : Text) : List Expected :=
  [(knows PrefixOp t, Expected.prefixOp), (knows InfixOp t, .infixOp),
    (knows PostfixOp t, .postfixOp), (knows Quote t, .quote), (Bracket.isOpening t, .openBracket),
    (Bracket.isClosing t, .closeBracket), (knows Separator t, .separator)].filterMap
    fun v => if v.1 then some v.2 else none

/-- Brackets are spelled by their openings and their closings. -/
theorem Bracket.knows_eq (t : Text) :
    Vocabulary.knows Bracket t = (isOpening t || isClosing t) := by
  rw [Bool.eq_iff_iff, Bool.or_eq_true]
  simp only [Vocabulary.knows, isOpening, isClosing, List.any_eq_true, List.contains_iff_mem,
    beq_iff_eq]
  constructor
  · rintro ⟨b, hb, ht⟩
    rcases List.mem_pair.1 ht with rfl | rfl
    · exact .inl ⟨b, hb, rfl⟩
    · exact .inr ⟨b, hb, rfl⟩
  · rintro (⟨b, hb, rfl⟩ | ⟨b, hb, rfl⟩)
    · exact ⟨b, hb, List.mem_pair.2 (.inl rfl)⟩
    · exact ⟨b, hb, List.mem_pair.2 (.inr rfl)⟩

namespace Lexeme

variable {d : Dialect} {l : Lexeme}

section Verdict

variable {α : Type} [Vocabulary α] [DecidableEq α] (allowed : Allowed α) (t : Text)

/-- There is a verdict on the symbols of the vocabulary. -/
theorem isSome_verdict : (verdict allowed t).isSome = Vocabulary.knows α t := by
  rw [verdict, Option.isSome_map, Vocabulary.ofSymbol?, Vocabulary.knows, List.isSome_find?]

/-- The verdict is favourable where the text is read as a member. -/
theorem verdict_beq_true : (verdict allowed t == some true) = (allowed.spelled? t).isSome := by
  unfold verdict Allowed.spelled? Allowed.permit
  cases Vocabulary.ofSymbol? α t with
  | none => rfl
  | some a => cases h : allowed.allows a <;> simp [Option.filter_some, h]

end Verdict

/-- Some verdict is favourable exactly when some vocabulary has the lexeme as an allowed symbol. -/
theorem any_verdicts (hblank : l.isWhitespace = false) :
    (l.verdicts d).any (fun v => v.1 == some true) =
      ((l.toPrefixOp d).isSome || (l.toInfixOp d).isSome || (l.toPostfixOp d).isSome ||
        (l.toQuote d).isSome || (l.toBracket d).isSome || (l.toSeparator d).isSome) := by
  have hseparator : l.toSeparator d = d.separators.spelled? l.text := by
    rw [toSeparator, hblank, if_neg Bool.false_ne_true]
    rfl
  simp only [verdicts, List.any_cons, List.any_nil, verdict_beq_true, hseparator, Bool.or_false,
    Bool.or_assoc]
  rfl

/-- A symbol has no category exactly when no verdict on it is favourable. -/
theorem symbolCategory_eq_other_iff (hblank : l.isWhitespace = false) :
    l.symbolCategory d = .other l.text ↔
      (l.verdicts d).any (fun v => v.1 == some true) = false := by
  rw [any_verdicts hblank]
  unfold symbolCategory
  repeat' split
  all_goals simp_all

/-- The first category with a verdict is the first one that has the text as a symbol. -/
theorem find_verdicts :
    ((l.verdicts d).find? fun v => v.1.isSome).map Prod.snd = l.text.categories.head? := by
  simp only [verdicts, Text.categories, List.find?_cons, isSome_verdict, Bracket.knows_eq]
  cases Vocabulary.knows PrefixOp l.text with
  | true => rfl
  | false =>
  cases Vocabulary.knows InfixOp l.text with
  | true => rfl
  | false =>
  cases Vocabulary.knows PostfixOp l.text with
  | true => rfl
  | false =>
  cases Vocabulary.knows Quote l.text with
  | true => rfl
  | false =>
  cases Bracket.isOpening l.text with
  | true => rfl
  | false =>
  cases Bracket.isClosing l.text with
  | true => rfl
  | false => cases Vocabulary.knows Separator l.text <;> rfl

/-- A lexeme is reported exactly when it has no category although some vocabulary has it, and then
as the first one that has it. -/
theorem disallowedCategory_eq_some_iff (hterminal : l.isTerminal = false)
    (hblank : l.isWhitespace = false) (category : Expected) :
    l.disallowedCategory d = some category ↔
      l.classify d = .ok (.other l.text) ∧ l.text.categories.head? = some category := by
  rw [classify_eq_symbol_iff (by simp) (by simp) (by simp) (by simp),
    symbolCategory_eq_other_iff hblank]
  constructor
  · intro h
    -- a word is not reported
    have hidentifier : l.isIdentifier = false := by
      by_contra hi
      rw [Bool.not_eq_false] at hi
      rw [disallowedCategory_of_isWord (isWord_of_isIdentifierText hi)] at h
      cases h
    have hnumeric : l.isNumeric = false := by
      by_contra hn
      rw [Bool.not_eq_false] at hn
      rw [disallowedCategory_of_isWord (isWord_of_isNumericText hn)] at h
      cases h
    unfold disallowedCategory at h
    split_ifs at h with hany
    refine ⟨⟨?_, Bool.eq_false_iff.2 hany⟩, find_verdicts ▸ h⟩
    simp only [isSymbolic, hterminal, hblank, hidentifier, hnumeric, Bool.not_false, Bool.and_self]
  · rintro ⟨⟨-, hany⟩, hfirst⟩
    rw [disallowedCategory, hany, if_neg Bool.false_ne_true, find_verdicts]
    exact hfirst

/-! ## Errors -/

/-- A lexeme of the source starts at the byte offset, and it has the property. -/
def HasAt (source : Text) (offset : Nat) (P : Lexeme → Prop) : Prop :=
  (∃ l ∈ all source, l.start = offset) ∧ ∀ l ∈ all source, l.start = offset → P l

/-- A lexeme that is seen, unless it is the terminal, is the one at its place. -/
theorem SeenIn.hasAt {source : Text} {P : Lexeme → Prop} (h : l.SeenIn source)
    (hne : l.text ≠ []) (hP : P l) : HasAt source l.start P := by
  cases h with
  | terminal => exact absurd (Cursor.tidy_ofSource source).terminal hne
  | lexeme hl =>
    refine ⟨⟨l, hl, rfl⟩, fun m hm hstart => ?_⟩
    rw [start_inj hm hl hstart]
    exact hP

/-- Nothing is reported of a terminal. -/
theorem text_ne_nil_of_reported {category : Expected}
    (h : l.disallowedCategory d = some category) : l.text ≠ [] := by
  intro hnil
  unfold disallowedCategory verdicts at h
  rw [hnil] at h
  cases h

end Lexeme

/-- The error tells disabled symbols from other lexemes that do not fit. -/
structure ParseError.Diagnosed (d : Dialect) (source : Text) (e : ParseError) : Prop where
  /-- An unexpected lexeme is no disabled symbol. -/
  unexpected : ∀ expected found offset, e = .unexpected expected found offset → found ≠ [] →
    Lexeme.HasAt source offset fun l => l.text = found ∧ l.disallowedCategory d = none
  /-- What is left over does not start with a disabled symbol. -/
  unresolved : ∀ remainder offset, e = .unresolved remainder offset →
    Lexeme.HasAt source offset fun l => l.remainder = remainder ∧ l.disallowedCategory d = none
  /-- A lexeme that is not allowed is an identifier or a numeric that its list rejects, or a symbol
  that is reported in the category. -/
  disallowed : ∀ category text offset, e = .disallowed category text offset →
    Lexeme.HasAt source offset fun l => l.text = text ∧
      (category = .identifier ∧ l.isIdentifier = true ∧ d.identifiers.allows text = false ∨
        category = .numeric ∧ l.isNumeric = true ∧ d.numerics.allows text = false ∨
        l.disallowedCategory d = some category)

namespace Grammar

variable {g : Grammar} {source : Text} {e : ParseError}

/-- Each reason for a failure is diagnosed. -/
theorem Failure.diagnosed (h : Failure g source e) : e.Diagnosed g.dialect source := by
  constructor
  · rintro expected found offset rfl hne
    cases h with
    | unexpected _ seen unreported => exact seen.hasAt hne ⟨rfl, unreported⟩
  · intro remainder offset heq
    cases h with
    | @unresolved l seen word unreported =>
      cases heq
      have hne : l.text ≠ [] := by simpa [Lexeme.isTerminal] using word
      exact seen.hasAt hne ⟨rfl, unreported⟩
    | _ => cases heq
  · rintro category text offset rfl
    cases h with
    | disabled seen reported =>
      exact seen.hasAt (Lexeme.text_ne_nil_of_reported reported) ⟨rfl, .inr (.inr reported)⟩
    | identifier seen shape rejected =>
      have hne := (Lexeme.isWord_of_isIdentifierText shape).1
      exact seen.hasAt hne ⟨rfl, .inl ⟨rfl, shape, rejected⟩⟩
    | numeric seen shape rejected =>
      have hne := (Lexeme.isWord_of_isNumericText shape).1
      exact seen.hasAt hne ⟨rfl, .inr (.inl ⟨rfl, shape, rejected⟩)⟩

/-- A lexeme that is neither empty nor blank is reported exactly when it has no category although
some vocabulary has it, and then as the first one that has it; and whatever entry point fails, the
error is reported accordingly. -/
theorem diagnosed_of_fails (g : Grammar) :
    (∀ l : Lexeme, l.isTerminal = false → l.isWhitespace = false → ∀ category,
      (l.disallowedCategory g.dialect = some category ↔
        l.classify g.dialect = .ok (.other l.text) ∧
          l.text.categories.head? = some category)) ∧
    ∀ source e, g.Fails source e → e.Diagnosed g.dialect source := by
  constructor
  · intro l hterminal hblank category
    exact Lexeme.disallowedCategory_eq_some_iff hterminal hblank category
  · intro source e h
    exact (failure_of_fails h).diagnosed

/-- Where `+` is disabled in all its three categories it is reported in the first of them, by itself
and in a source. -/
theorem diagnosed_of_fails_plus :
    (Lexeme.disallowedCategory
        { prefixes := .none, infixes := .except (.ofList [.plus]), postfixes := .none }
        ⟨"a + b".toList, 2, "+".toList, " b".toList, "a ".toList, rfl, rfl⟩ = some .prefixOp ↔
      Lexeme.classify
          { prefixes := .none, infixes := .except (.ofList [.plus]), postfixes := .none }
          ⟨"a + b".toList, 2, "+".toList, " b".toList, "a ".toList, rfl, rfl⟩ =
            .ok (.other "+".toList) ∧
        (Text.categories "+".toList).head? = some .prefixOp) ∧
    Fails ⟨{ prefixes := .none, infixes := .except (.ofList [.plus]), postfixes := .none }, 8⟩
      "a + b".toList (.disallowed .prefixOp "+".toList 2) ∧
    (ParseError.disallowed .prefixOp "+".toList 2).Diagnosed
      { prefixes := .none, infixes := .except (.ofList [.plus]), postfixes := .none }
      "a + b".toList :=
  have h : Fails
      ⟨{ prefixes := .none, infixes := .except (.ofList [.plus]), postfixes := .none }, 8⟩
      "a + b".toList (.disallowed .prefixOp "+".toList 2) := .inl (by decide +kernel)
  ⟨(diagnosed_of_fails
      ⟨{ prefixes := .none, infixes := .except (.ofList [.plus]), postfixes := .none }, 8⟩).1
      ⟨"a + b".toList, 2, "+".toList, " b".toList, "a ".toList, rfl, rfl⟩ (by decide)
      (by decide) .prefixOp,
    h, (diagnosed_of_fails _).2 _ _ h⟩

end Grammar

end FlatExpr
