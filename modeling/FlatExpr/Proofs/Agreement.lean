import FlatExpr.Proofs.Symbols

/-!
# Dialects that agree on a text

What a dialect is asked about a lexeme concerns the text of the lexeme alone: whether an identifier
or a numeric with that text is allowed, whether the members that the text spells are, and, if the
text is blank, whether white space is a separator. Two dialects that answer these questions alike
(`Dialect.AgreeOn`) give a lexeme with that text the same category, and they report it alike where
it does not fit.
-/

namespace FlatExpr

/-! ## Allow-lists -/

namespace Allowed

variable {α : Type} [Vocabulary α] [DecidableEq α] {allowed allowed' : Allowed α} {t : Text}

/-- The two lists say the same of every member that the text spells. -/
def AgreeOn (allowed allowed' : Allowed α) (t : Text) : Prop :=
  ∀ a : α, t ∈ Vocabulary.spellings a → allowed.allows a = allowed'.allows a

/-- The member that a text is read as is spelled by it. -/
theorem AgreeOn.allows_eq (h : AgreeOn allowed allowed' t) {a : α}
    (ha : Vocabulary.ofSymbol? α t = some a) : allowed'.allows a = allowed.allows a := by
  have hspells : (Vocabulary.spellings a).contains t = true :=
    List.find?_some (p := fun a : α => (Vocabulary.spellings a).contains t) ha
  exact (h a (List.contains_iff_mem.1 hspells)).symm

theorem AgreeOn.permit_eq (h : AgreeOn allowed allowed' t) :
    allowed'.permit (Vocabulary.ofSymbol? α t) = allowed.permit (Vocabulary.ofSymbol? α t) := by
  cases ha : Vocabulary.ofSymbol? α t with
  | none => rfl
  | some a => simp only [permit, Option.filter_some, h.allows_eq ha]

theorem AgreeOn.verdict_eq (h : AgreeOn allowed allowed' t) :
    Lexeme.verdict allowed' t = Lexeme.verdict allowed t := by
  unfold Lexeme.verdict
  cases ha : Vocabulary.ofSymbol? α t with
  | none => rfl
  | some a => rw [Option.map_some, Option.map_some, h.allows_eq ha]

/-- No symbol consists of word characters, so that there is nothing to agree on. -/
theorem agreeOn_of_word [Wordless α] (allowed allowed' : Allowed α)
    (h : t.all (fun c => (CharKind.of c).isWord) = true) : AgreeOn allowed allowed' t := by
  intro a ha
  rw [Wordless.not_isWord a t ha] at h
  cases h

end Allowed

/-! ## Dialects -/

/-- The two dialects say the same of a text, in each of the categories that it may belong to. -/
structure Dialect.AgreeOn (d d' : Dialect) (t : Text) : Prop where
  /-- As an identifier. -/
  identifiers : Lexeme.isIdentifierText t = true →
    d.identifiers.allows t = d'.identifiers.allows t
  /-- As a numeric. -/
  numerics : Lexeme.isNumericText t = true → d.numerics.allows t = d'.numerics.allows t
  /-- As a prefix operator. -/
  prefixes : d.prefixes.AgreeOn d'.prefixes t
  /-- As an infix operator. -/
  infixes : d.infixes.AgreeOn d'.infixes t
  /-- As a postfix operator. -/
  postfixes : d.postfixes.AgreeOn d'.postfixes t
  /-- As a quotation mark. -/
  quotes : d.quotes.AgreeOn d'.quotes t
  /-- As a bracket. -/
  brackets : d.brackets.AgreeOn d'.brackets t
  /-- As a separator. -/
  separators : d.separators.AgreeOn d'.separators t
  /-- As white space between two terms. -/
  space : Text.isBlank t = true → d.separators.allows .space = d'.separators.allows .space

/-- The empty text belongs to no category, so that dialects agree on it. -/
theorem Dialect.agreeOn_nil (d d' : Dialect) : d.AgreeOn d' [] where
  identifiers h := nomatch h
  numerics h := nomatch h
  prefixes := Allowed.agreeOn_of_word _ _ rfl
  infixes := Allowed.agreeOn_of_word _ _ rfl
  postfixes := Allowed.agreeOn_of_word _ _ rfl
  quotes := Allowed.agreeOn_of_word _ _ rfl
  brackets := Allowed.agreeOn_of_word _ _ rfl
  separators := Allowed.agreeOn_of_word _ _ rfl
  space h := nomatch h

/-- Dialects that agree on everything agree on every text. -/
theorem Dialect.AgreeOn.refl (d : Dialect) (t : Text) : d.AgreeOn d t where
  identifiers _ := rfl
  numerics _ := rfl
  prefixes _ _ := rfl
  infixes _ _ := rfl
  postfixes _ _ := rfl
  quotes _ _ := rfl
  brackets _ _ := rfl
  separators _ _ := rfl
  space _ := rfl

/-! ## Lexemes -/

namespace Lexeme

variable {d d' : Dialect} {l : Lexeme} (h : d.AgreeOn d' l.text)

include h

theorem toPrefixOp_eq : l.toPrefixOp d' = l.toPrefixOp d := h.prefixes.permit_eq

theorem toInfixOp_eq : l.toInfixOp d' = l.toInfixOp d := h.infixes.permit_eq

theorem toPostfixOp_eq : l.toPostfixOp d' = l.toPostfixOp d := h.postfixes.permit_eq

theorem toQuote_eq : l.toQuote d' = l.toQuote d := h.quotes.permit_eq

theorem toBracket_eq : l.toBracket d' = l.toBracket d := h.brackets.permit_eq

theorem toSeparator_eq : l.toSeparator d' = l.toSeparator d := by
  unfold toSeparator
  cases hblank : l.isWhitespace with
  | true =>
    -- any white space counts as the separator `space`
    simp only [if_true, Allowed.permit, Option.filter_some, h.space hblank]
  | false => exact h.separators.permit_eq

/-- The lexeme has the same category under both dialects, or is the same error. -/
theorem classify_eq : l.classify d' = l.classify d := by
  have hidentifier : l.toIdentifier d' = l.toIdentifier d := by
    unfold toIdentifier Allowed.require
    by_cases hi : l.isIdentifier = true
    · rw [h.identifiers hi]
    · rw [if_neg hi, if_neg hi]
  have hnumeric : l.toNumeric d' = l.toNumeric d := by
    unfold toNumeric Allowed.require
    by_cases hn : l.isNumeric = true
    · rw [h.numerics hn]
    · rw [if_neg hn, if_neg hn]
  have hsymbol : l.symbolCategory d' = l.symbolCategory d := by
    unfold symbolCategory
    rw [toPrefixOp_eq h, toInfixOp_eq h, toPostfixOp_eq h, toQuote_eq h, toBracket_eq h,
      toSeparator_eq h]
  unfold classify
  rw [hidentifier, hnumeric, hsymbol]

/-- The lexeme is reported as disallowed under both dialects or under none of them. -/
theorem disallowedCategory_eq : l.disallowedCategory d' = l.disallowedCategory d := by
  have hverdicts : l.verdicts d' = l.verdicts d := by
    unfold verdicts
    rw [h.prefixes.verdict_eq, h.infixes.verdict_eq, h.postfixes.verdict_eq, h.quotes.verdict_eq,
      h.brackets.verdict_eq, h.separators.verdict_eq]
  unfold disallowedCategory
  rw [hverdicts]

end Lexeme

namespace Grammar

variable {g g' : Grammar} {l : Lexeme} (h : g.dialect.AgreeOn g'.dialect l.text)

include h

theorem unexpected_eq (expected : Expected) :
    g'.unexpected expected l = g.unexpected expected l := by
  unfold unexpected
  rw [Lexeme.disallowedCategory_eq h]

theorem opens?_eq : g'.opens? l = g.opens? l := by
  unfold opens?
  rw [Lexeme.toBracket_eq h]

theorem closes?_eq : g'.closes? l = g.closes? l := by
  unfold closes?
  rw [Lexeme.toBracket_eq h]

theorem startsOperand_eq : g'.startsOperand l = g.startsOperand l := by
  unfold startsOperand
  rw [Lexeme.classify_eq h]

end Grammar

end FlatExpr
