import Mathlib.Data.Nat.Find
import FlatExpr.Proofs.Limit

/-!
# Thresholds of the nesting limit

For every source and every entry point there is one threshold (`Threshold`): under each limit below
it the source is refused, and from there on the answer does not change any more, be it a tree or an
error. The threshold is the first limit under which the source is not refused. It is at most one
more than the number of lexemes, since a refusal takes as many lexemes as there are levels, and for
an operation that is read it is one more than the depth of the tree.
-/

namespace FlatExpr

/-! ## Limits that only cut -/

section Thresholds

variable {α : Type} {limit lexemes : Nat}

/-- The answer under a limit beside the answer under a larger one: it is a refusal, and the source
has as many lexemes as the limit allows levels, or the two are the same and no refusal. -/
inductive Cut (limit lexemes : Nat) : Except ParseError α → Except ParseError α → Prop where
  | refused {y : Except ParseError α} (deep : limit ≤ lexemes) :
      Cut limit lexemes (.error (.tooDeep (limit + 1) limit)) y
  | same {x : Except ParseError α} (h : ∀ depth limit, x ≠ .error (.tooDeep depth limit)) :
      Cut limit lexemes x x

/-- The answers under the limits below `N` are refusals, and from `N` on there is one answer that is
no refusal. -/
def Threshold (answer : Nat → Except ParseError α) (N : Nat) : Prop :=
  (∀ limit < N, answer limit = .error (.tooDeep (limit + 1) limit)) ∧
    ∃ x, (∀ limit ≥ N, answer limit = x) ∧ ∀ depth limit, x ≠ .error (.tooDeep depth limit)

/-- A refusal needs lexemes. -/
theorem Cut.le_lexemes {y : Except ParseError α}
    (h : Cut limit lexemes (.error (.tooDeep (limit + 1) limit)) y) : limit ≤ lexemes := by
  cases h with
  | refused deep => exact deep
  | same h => exact absurd rfl (h _ _)

/-- An answer that is not the refusal under that limit is the one under the larger limit, too. -/
theorem Cut.eq_of_ne {x y : Except ParseError α} (h : Cut limit lexemes x y)
    (hx : x ≠ .error (.tooDeep (limit + 1) limit)) :
    y = x ∧ ∀ depth limit, x ≠ .error (.tooDeep depth limit) := by
  cases h with
  | refused deep => exact absurd rfl hx
  | same h => exact ⟨rfl, h⟩

/-- Where limits only cut, the first limit that does not is the threshold. -/
theorem exists_threshold {answer : Nat → Except ParseError α}
    (h : ∀ limit limit', limit ≤ limit' → Cut limit lexemes (answer limit) (answer limit')) :
    ∃ N ≤ lexemes + 1, Threshold answer N := by
  classical
  -- with more levels than lexemes nothing is refused
  have hpassed : answer (lexemes + 1) ≠ .error (.tooDeep (lexemes + 1 + 1) (lexemes + 1)) := by
    intro hrefused
    have hcut := h (lexemes + 1) (lexemes + 1) (Nat.le_refl _)
    rw [hrefused] at hcut
    have hle := hcut.le_lexemes
    omega
  have hfirst : ∃ N, answer N ≠ .error (.tooDeep (N + 1) N) := ⟨lexemes + 1, hpassed⟩
  refine ⟨Nat.find hfirst, Nat.find_le hpassed, ?_, answer (Nat.find hfirst), ?_, ?_⟩
  · intro limit hlt
    exact not_not.1 (Nat.find_min hfirst hlt)
  · intro limit hge
    exact ((h _ limit hge).eq_of_ne (Nat.find_spec hfirst)).1
  · exact ((h _ _ (Nat.le_refl _)).eq_of_ne (Nat.find_spec hfirst)).2

end Thresholds

/-! ## Sources -/

namespace Grammar

open Rule

variable {d : Dialect} {limit limit' : Nat} {rule rule' : Rule Expr}

/-- What is left of a source is not reported as too deep. -/
theorem map_checkEnd_ne_tooDeep (g : Grammar) (c : Cursor) (e : Expr) (depth limit : Nat) :
    (g.checkEnd c).map (fun _ => e) ≠ .error (.tooDeep depth limit) := by
  simp only [checkEnd]
  split_ifs
  · exact nofun
  · split
    · exact nofun
    · exact nofun

theorem cut_parseWhole (h : Agrees limit limit 0 rule rule') (source : Text) :
    Cut limit (Lexeme.all source).length ((⟨d, limit⟩ : Grammar).parseWhole rule source)
      ((⟨d, limit'⟩ : Grammar).parseWhole rule' source) := by
  have hstart := h (startOf source) (Cursor.tidy_ofSource source) rfl
  unfold parseWhole
  generalize rule (startOf source) = x, rule' (startOf source) = y at hstart
  cases hstart with
  | refused deep => exact .refused (deep.trans (Cursor.load_le_length _))
  | failed h =>
    exact .same fun depth limit herror => h.ne_tooDeep depth limit (Except.error.inj herror)
  | passed _ => exact .same (map_checkEnd_ne_tooDeep ⟨d, limit⟩ _ _)

theorem cut_parseMany (h : Agrees limit limit 0 rule rule') (source : Text) :
    Cut limit (Lexeme.all source).length (parseMany rule source) (parseMany rule' source) := by
  have hstart := agrees_many h (startOf source).cursor.ahead.length (startOf source)
    (Cursor.tidy_ofSource source) rfl
  simp only [parseMany]
  generalize many rule _ (startOf source) = x, many rule' _ (startOf source) = y at hstart
  cases hstart with
  | refused deep => exact .refused (deep.trans (Cursor.load_le_length _))
  | failed h =>
    exact .same fun depth limit herror => h.ne_tooDeep depth limit (Except.error.inj herror)
  | passed _ => exact .same nofun

/-- Where an operation is read from the threshold on, the threshold is one more than its depth. -/
theorem threshold_eq_depth {source : Text} {N : Nat} {e : Expr}
    (h : Threshold (fun limit => (⟨d, limit⟩ : Grammar).parseExpression source) N)
    (hread : (⟨d, N⟩ : Grammar).parseExpression source = .ok e) : N = 1 + e.depth := by
  have hdepth := parseExpression_iff_depth hread
  have hlt : e.depth < N := (hdepth N).1 hread
  -- a limit between the depth and the threshold would both be refused and read the tree
  by_contra hne
  have hearlier := (hdepth (e.depth + 1)).2 (Nat.lt_succ_self _)
  have hrefused := hearlier.symm.trans (h.1 (e.depth + 1) (by omega))
  cases hrefused

/-- The limit on nesting only cuts: for every source and entry point there is a threshold, at most
one more than the number of lexemes. For an operation that is read it is one more than the depth of
the tree. -/
theorem parse_threshold (d : Dialect) (source : Text) :
    (∀ parse ∈ [parseSequence, parseTerm, parseExpression],
      ∃ N ≤ (Lexeme.all source).length + 1, Threshold (fun limit => parse ⟨d, limit⟩ source) N) ∧
    (∀ parse ∈ [parseTerms, parseExpressions],
      ∃ N ≤ (Lexeme.all source).length + 1, Threshold (fun limit => parse ⟨d, limit⟩ source) N) ∧
    ∀ N e, Threshold (fun limit => (⟨d, limit⟩ : Grammar).parseExpression source) N →
      (⟨d, N⟩ : Grammar).parseExpression source = .ok e → N = 1 + e.depth := by
  refine ⟨?_, ?_, fun N e => threshold_eq_depth⟩
  · simp only [List.mem_cons, List.not_mem_nil, or_false]
    rintro parse (rfl | rfl | rfl)
    · exact exists_threshold fun _ _ hle => cut_parseWhole (agrees_sequence hle) source
    · exact exists_threshold fun _ _ hle => cut_parseWhole (agrees_term hle) source
    · exact exists_threshold fun _ _ hle => cut_parseWhole (agrees_operation hle) source
  · simp only [List.mem_cons, List.not_mem_nil, or_false]
    rintro parse (rfl | rfl)
    · exact exists_threshold fun _ _ hle => cut_parseMany (agrees_term hle) source
    · exact exists_threshold fun _ _ hle => cut_parseMany (agrees_operation hle) source

/-- Two pairs of brackets beside an operation that is the operand of a prefix operator, so that
three levels are needed, and a list of expressions with an error in the second one. -/
theorem parse_threshold_nested :
    (Threshold (fun limit => (⟨.full, limit⟩ : Grammar).parseExpression "((a)) + - !b".toList) 3 ∧
      (⟨.full, 3⟩ : Grammar).parseExpression "((a)) + - !b".toList =
        .ok (.binary (.bracketed .parenthesis (.bracketed .parenthesis (.identifier "a".toList)))
          .plus (.prefixed .minus (.prefixed .not (.identifier "b".toList))))) ∧
    ∃ N ≤ 6, Threshold
      (fun limit => (⟨.full, limit⟩ : Grammar).parseExpressions "a ([)".toList) N := by
  have hread : (⟨.full, 256⟩ : Grammar).parseExpression "((a)) + - !b".toList =
      .ok (.binary (.bracketed .parenthesis (.bracketed .parenthesis (.identifier "a".toList)))
        .plus (.prefixed .minus (.prefixed .not (.identifier "b".toList)))) := by decide +kernel
  refine ⟨?_, (parse_threshold .full "a ([)".toList).2.1 parseExpressions (by simp)⟩
  obtain ⟨N, hN, hthreshold⟩ :=
    (parse_threshold .full "((a)) + - !b".toList).1 parseExpression (by simp)
  have hlexemes : (Lexeme.all "((a)) + - !b".toList).length = 12 := by decide +kernel
  obtain ⟨x, hx, -⟩ := hthreshold.2
  have hat : (⟨.full, N⟩ : Grammar).parseExpression "((a)) + - !b".toList =
      (⟨.full, 256⟩ : Grammar).parseExpression "((a)) + - !b".toList :=
    (hx N (Nat.le_refl N)).trans (hx 256 (by omega)).symm
  rw [hread] at hat
  obtain rfl : N = 3 := (parse_threshold .full "((a)) + - !b".toList).2.2 N _ hthreshold hat
  exact ⟨hthreshold, hat⟩

end Grammar

end FlatExpr
