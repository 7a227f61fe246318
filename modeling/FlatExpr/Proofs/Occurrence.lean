import FlatExpr.Proofs.Failures

/-!
# A dialect acts through the symbols that occur

How a source is read under a dialect depends on what the dialect says of the lexemes of that source,
and on nothing else (`Dialect.answersAlike_of_agree`). A symbol that does not occur may be allowed
or not, and where there is no white space it does not matter whether that is a separator. In
particular it does not matter how an allow-list is written down.
-/

namespace FlatExpr

namespace Allowed

/-- The two lists allow the same values, whether they name those that are allowed, those that are
not, or none at all. -/
def SameMembers {α : Type} [Named α] [DecidableEq α] (allowed allowed' : Allowed α) : Prop :=
  ∀ a, allowed.allows a = allowed'.allows a

end Allowed

namespace Dialect

open Grammar

/-- The lists of the two dialects allow the same values in each category. -/
structure SameMembers (d d' : Dialect) : Prop where
  /-- The identifiers. -/
  identifiers : d.identifiers.SameMembers d'.identifiers
  /-- The numerics. -/
  numerics : d.numerics.SameMembers d'.numerics
  /-- The prefix operators. -/
  prefixes : d.prefixes.SameMembers d'.prefixes
  /-- The infix operators. -/
  infixes : d.infixes.SameMembers d'.infixes
  /-- The postfix operators. -/
  postfixes : d.postfixes.SameMembers d'.postfixes
  /-- The separators. -/
  separators : d.separators.SameMembers d'.separators
  /-- The quotation marks. -/
  quotes : d.quotes.SameMembers d'.quotes
  /-- The brackets. -/
  brackets : d.brackets.SameMembers d'.brackets

/-- Each entry point answers the source under both dialects in the same way, be it with trees or
with an error. -/
structure AnswersAlike (d d' : Dialect) (limit : Nat) (source : Text) : Prop where
  /-- One sequence. -/
  sequence : parseSequence ⟨d', limit⟩ source = parseSequence ⟨d, limit⟩ source
  /-- One term. -/
  term : parseTerm ⟨d', limit⟩ source = parseTerm ⟨d, limit⟩ source
  /-- One operation. -/
  expression : parseExpression ⟨d', limit⟩ source = parseExpression ⟨d, limit⟩ source
  /-- A list of terms. -/
  terms : parseTerms ⟨d', limit⟩ source = parseTerms ⟨d, limit⟩ source
  /-- A list of operations. -/
  expressions : parseExpressions ⟨d', limit⟩ source = parseExpressions ⟨d, limit⟩ source

variable {d d' : Dialect} {limit : Nat} {source : Text}

/-- Lists with the same members agree on every text. -/
theorem SameMembers.agreeOn (h : d.SameMembers d') (t : Text) : d.AgreeOn d' t where
  identifiers _ := h.identifiers t
  numerics _ := h.numerics t
  prefixes op _ := h.prefixes op
  infixes op _ := h.infixes op
  postfixes op _ := h.postfixes op
  quotes q _ := h.quotes q
  brackets b _ := h.brackets b
  separators s _ := h.separators s
  space _ := h.separators .space

/-- Grammars that agree over a source answer it alike. -/
theorem answersAlike_of_agreeOver
    (same : AgreeOver ⟨d, limit⟩ ⟨d', limit⟩ source) : AnswersAlike d d' limit source where
  sequence := (sameAnswer_parseWhole same (alike_sequence same)).eq
  term := (sameAnswer_parseWhole same (alike_term same)).eq
  expression := (sameAnswer_parseWhole same (alike_operation same)).eq
  terms := (sameAnswer_parseMany (alike_term same)).eq
  expressions := (sameAnswer_parseMany (alike_operation same)).eq

/-- Two dialects that agree on every lexeme of a source answer it alike, and two dialects whose
lists have the same members answer every source alike. -/
theorem answersAlike_of_agree (d d' : Dialect) (limit : Nat) :
    (∀ source, (∀ l ∈ Lexeme.all source, d.AgreeOn d' l.text) →
      AnswersAlike d d' limit source) ∧
    (d.SameMembers d' → ∀ source, AnswersAlike d d' limit source) := by
  constructor
  · intro source h
    exact answersAlike_of_agreeOver ⟨rfl, h⟩
  · intro h source
    exact answersAlike_of_agreeOver ⟨rfl, fun l _ => h.agreeOn l.text⟩

/-- A dialect that allows little more than what occurs in `x-1` answers it as `full` does, and one
that lists all its separators rejects an open bracket as `full` does. -/
theorem answersAlike_of_agree_listed :
    (AnswersAlike full { identifiers := .only (.ofList ["x".toList]),
                         prefixes := .except (.ofList [.not]), infixes := .only (.ofList [.minus]),
                         postfixes := .only (.ofList [.minus, .plus]), separators := .none,
                         quotes := .none, brackets := .none } 3 "x-1".toList ∧
      parseSequence ⟨full, 3⟩ "x-1".toList =
        .ok (.binary (.identifier "x".toList) .minus (.numeric "1".toList))) ∧
    (AnswersAlike full { separators := .only (.ofList [.space, .dot, .colon, .comma]),
                         quotes := .except .empty } 3 "(a ".toList ∧
      parseSequence ⟨full, 3⟩ "(a ".toList = .error (.unexpected .closeBracket [] 3)) := by
  refine ⟨⟨(answersAlike_of_agree _ _ 3).1 "x-1".toList ?_, by decide +kernel⟩,
    ⟨(answersAlike_of_agree _ _ 3).2 ?_ "(a ".toList, by decide +kernel⟩⟩
  · have htexts : Lexeme.texts "x-1".toList = ["x".toList, "-".toList, "1".toList] := by
      decide +kernel
    rw [← List.forall_mem_map (f := Lexeme.text) (P := fun t => full.AgreeOn _ t),
      Lexeme.map_text_all, htexts]
    simp only [List.forall_mem_cons, List.not_mem_nil, IsEmpty.forall_iff, implies_true, and_true]
    refine ⟨⟨by decide, by decide, ?_, ?_, ?_, ?_, ?_, ?_, by decide⟩,
      ⟨by decide, by decide, ?_, ?_, ?_, ?_, ?_, ?_, by decide⟩,
      ⟨by decide, by decide, ?_, ?_, ?_, ?_, ?_, ?_, by decide⟩⟩
    all_goals
      intro a
      cases a <;> decide
  · constructor
    all_goals intro a
    case separators => cases a <;> decide
    all_goals rfl

end Dialect

end FlatExpr
