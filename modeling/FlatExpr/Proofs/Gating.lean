import Mathlib.Computability.RegularExpressions
import FlatExpr.Proofs.Shapes

/-!
# What a dialect lets through

Nothing that a dialect forbids occurs in a tree that is read under it, at any depth and in any role:
every node of the tree is admitted on its own (`Dialect.Admits`). A symbol that several vocabularies
share is judged by the list of the role that it has in the tree.

The shapes of identifiers and numerics are given here as regular expressions over characters, and
the tests that the grammar makes are shown to be these (`Lexeme.isIdentifierText_iff`,
`Lexeme.isNumericText_iff`).
-/

namespace FlatExpr

open RegularExpression

/-! ## Patterns of words -/

namespace Lexeme

/-- The characters from one to another, in the order of their code points. -/
def charRange (first last : Char) : List Char :=
  (List.range' first.toNat (last.toNat + 1 - first.toNat)).map Char.ofNat

/-- The letters `a-z` and `A-Z`. -/
def letters : List Char := charRange 'a' 'z' ++ charRange 'A' 'Z'

/-- The digits `0-9`. -/
def digits : List Char := charRange '0' '9'

/-- One character out of a list. -/
def oneOf (cs : List Char) : RegularExpression Char := cs.foldr (fun c r => char c + r) 0

/-- The pattern `[_$a-zA-Z][_$a-zA-Z0-9]*`. -/
def identifierPattern : RegularExpression Char :=
  oneOf (['_', '$'] ++ letters) * (oneOf (['_', '$'] ++ letters ++ digits)).star

/-- The pattern `[0-9][_a-zA-Z0-9]*`. -/
def numericPattern : RegularExpression Char :=
  oneOf digits * (oneOf (['_'] ++ letters ++ digits)).star

theorem mem_oneOf_iff {cs : List Char} {t : Text} :
    t ∈ (oneOf cs).matches' ↔ ∃ c ∈ cs, t = [c] := by
  induction cs with
  | nil => simp [oneOf, Language.notMem_zero]
  | cons c cs ih =>
    have hcons : t ∈ (oneOf (c :: cs)).matches' ↔ t = [c] ∨ t ∈ (oneOf cs).matches' := Iff.rfl
    rw [hcons, ih, List.exists_mem_cons_iff]

theorem mem_oneOf_star_iff {cs : List Char} {t : Text} :
    t ∈ (oneOf cs).star.matches' ↔ ∀ c ∈ t, c ∈ cs := by
  rw [matches'_star, Language.mem_kstar]
  constructor
  · rintro ⟨pieces, rfl, hpieces⟩ c hc
    obtain ⟨piece, hpiece, hc⟩ := List.mem_flatten.1 hc
    obtain ⟨c', hc', rfl⟩ := mem_oneOf_iff.1 (hpieces piece hpiece)
    obtain rfl := List.mem_singleton.1 hc
    exact hc'
  · -- every character is a piece of its own
    intro h
    refine ⟨t.map fun c => [c], by rw [← List.flatMap_def, List.flatMap_singleton'], ?_⟩
    intro piece hpiece
    obtain ⟨c, hc, rfl⟩ := List.mem_map.1 hpiece
    exact mem_oneOf_iff.2 ⟨c, h c hc, rfl⟩

/-- The texts of one character out of a list and any number out of another. -/
theorem mem_oneOf_mul_star_iff {first others : List Char} {t : Text} :
    t ∈ (oneOf first * (oneOf others).star).matches' ↔
      ∃ c cs, t = c :: cs ∧ c ∈ first ∧ ∀ x ∈ cs, x ∈ others := by
  rw [matches'_mul, Language.mem_mul]
  constructor
  · rintro ⟨start, hstart, rest, hrest, rfl⟩
    obtain ⟨c, hc, rfl⟩ := mem_oneOf_iff.1 hstart
    exact ⟨c, rest, rfl, hc, mem_oneOf_star_iff.1 hrest⟩
  · rintro ⟨c, cs, rfl, hc, hcs⟩
    exact ⟨[c], mem_oneOf_iff.2 ⟨c, hc, rfl⟩, cs, mem_oneOf_star_iff.2 hcs, rfl⟩

/-- A test on ASCII characters is membership in a list if the two agree on all of these. -/
theorem eq_true_iff_mem_of_ascii (test : Char → Bool) {cs : List Char}
    (hascii : ∀ c, test c = true → c.toNat < 128)
    (htable : ∀ n < 128, test (Char.ofNat n) = true → Char.ofNat n ∈ cs)
    (hmem : cs.all test = true) (c : Char) : test c = true ↔ c ∈ cs := by
  constructor
  · intro h
    have hc := htable c.toNat (hascii c h)
    rw [Char.ofNat_toNat] at hc
    exact hc h
  · exact List.all_eq_true.1 hmem c

theorem startsIdentifier_iff (c : Char) :
    startsIdentifier c = true ↔ c ∈ ['_', '$'] ++ letters :=
  eq_true_iff_mem_of_ascii startsIdentifier (fun _ h => toNat_lt_of_word (.inl h))
    (by decide +kernel) (by decide +kernel) c

theorem continuesIdentifier_iff (c : Char) :
    (startsIdentifier c || c.isDigit) = true ↔ c ∈ ['_', '$'] ++ letters ++ digits :=
  eq_true_iff_mem_of_ascii (fun c => startsIdentifier c || c.isDigit)
    (fun _ h => toNat_lt_of_word (Bool.or_eq_true_iff.1 h)) (by decide +kernel)
    (by decide +kernel) c

theorem isDigit_iff (c : Char) : c.isDigit = true ↔ c ∈ digits :=
  eq_true_iff_mem_of_ascii Char.isDigit (fun _ h => toNat_lt_of_word (.inr h))
    (by decide +kernel) (by decide +kernel) c

theorem continuesNumeric_iff (c : Char) :
    (c.isAlphanum || c == '_') = true ↔ c ∈ ['_'] ++ letters ++ digits := by
  refine eq_true_iff_mem_of_ascii (fun c => c.isAlphanum || c == '_') ?_
    (by decide +kernel) (by decide +kernel) c
  intro c h
  apply toNat_lt_of_word
  simp only [Char.isAlphanum, Bool.or_eq_true] at h
  rcases h with (h | h) | h
  · exact .inl (by simp [startsIdentifier, h])
  · exact .inr h
  · exact .inl (by simp [startsIdentifier, h])

/-- A text whose first character passes one test and whose others pass another matches the pattern
of the characters that do. -/
theorem word_iff_matches {starts continues : Char → Bool} {first others : List Char}
    (hfirst : ∀ c, starts c = true ↔ c ∈ first) (hothers : ∀ c, continues c = true ↔ c ∈ others)
    (c : Char) (cs : Text) :
    (starts c && cs.all continues) = true ↔
      c :: cs ∈ (oneOf first * (oneOf others).star).matches' := by
  rw [mem_oneOf_mul_star_iff, Bool.and_eq_true, List.all_eq_true, hfirst]
  simp only [hothers]
  constructor
  · rintro ⟨hc, hcs⟩
    exact ⟨c, cs, rfl, hc, hcs⟩
  · rintro ⟨_, _, ⟨rfl, rfl⟩, hc, hcs⟩
    exact ⟨hc, hcs⟩

/-- The empty text is no word. -/
theorem nil_not_mem_pattern (first others : List Char) :
    ([] : Text) ∉ (oneOf first * (oneOf others).star).matches' := by
  rw [mem_oneOf_mul_star_iff]
  rintro ⟨c, cs, h, -⟩
  cases h

/-- The identifiers are the texts of their pattern. -/
theorem isIdentifierText_iff (t : Text) :
    isIdentifierText t = true ↔ t ∈ identifierPattern.matches' := by
  cases t with
  | nil => exact ⟨nofun, fun h => absurd h (nil_not_mem_pattern _ _)⟩
  | cons c cs => exact word_iff_matches startsIdentifier_iff continuesIdentifier_iff c cs

/-- The numerics are the texts of their pattern. -/
theorem isNumericText_iff (t : Text) :
    isNumericText t = true ↔ t ∈ numericPattern.matches' := by
  cases t with
  | nil => exact ⟨nofun, fun h => absurd h (nil_not_mem_pattern _ _)⟩
  | cons c cs => exact word_iff_matches isDigit_iff continuesNumeric_iff c cs

end Lexeme

/-! ## Nodes -/

namespace Expr

mutual

/-- The nodes of a tree, each before those of its parts. -/
def nodes : Expr → List Expr
  | .identifier name => [.identifier name]
  | .numeric value => [.numeric value]
  | .literal quote value => [.literal quote value]
  | .prefixed op operand => .prefixed op operand :: nodes operand
  | .postfixed operand op => .postfixed operand op :: nodes operand
  | .binary left op right => .binary left op right :: (nodes left ++ nodes right)
  | .chain first rest => .chain first rest :: (nodes first ++ nodesLinks rest)
  | .bracketed bracket inner => .bracketed bracket inner :: nodes inner
  | .sequence terms separator => .sequence terms separator :: nodesTerms terms

/-- The nodes of further operands of a chain. -/
def nodesLinks : List (InfixOp × Expr) → List Expr
  | [] => []
  | (_, operand) :: rest => nodes operand ++ nodesLinks rest

/-- The nodes of the terms of a sequence. -/
def nodesTerms : List Expr → List Expr
  | [] => []
  | term :: terms => nodes term ++ nodesTerms terms

end

variable {P : Expr → Prop}

theorem forall_mem_nodesLinks {rest : List (InfixOp × Expr)}
    (h : ∀ p ∈ rest, ∀ x ∈ p.2.nodes, P x) : ∀ x ∈ nodesLinks rest, P x := by
  induction rest with
  | nil => intro x hx; cases hx
  | cons p rest ih =>
    rw [nodesLinks, List.forall_mem_append]
    exact ⟨h p (by simp), ih fun q hq => h q (List.mem_cons_of_mem p hq)⟩

theorem forall_mem_nodesTerms {terms : List Expr} (h : ∀ t ∈ terms, ∀ x ∈ t.nodes, P x) :
    ∀ x ∈ nodesTerms terms, P x := by
  induction terms with
  | nil => intro x hx; cases hx
  | cons t terms ih =>
    rw [nodesTerms, List.forall_mem_append]
    exact ⟨h t (by simp), ih fun u hu => h u (List.mem_cons_of_mem t hu)⟩

end Expr

/-- A node on its own obeys the dialect: a word has its pattern and is allowed, and so is every
operator, quotation mark, bracket or separator of the node, by the list of its role. -/
def Dialect.Admits (d : Dialect) : Expr → Prop
  | .identifier name =>
    name ∈ Lexeme.identifierPattern.matches' ∧ d.identifiers.allows name = true
  | .numeric value => value ∈ Lexeme.numericPattern.matches' ∧ d.numerics.allows value = true
  | .literal quote _ => d.quotes.allows quote = true
  | .prefixed op _ => d.prefixes.allows op = true
  | .postfixed _ op => d.postfixes.allows op = true
  | .binary _ op _ => d.infixes.allows op = true
  | .chain _ rest => ∀ p ∈ rest, d.infixes.allows p.1 = true
  | .bracketed bracket _ => d.brackets.allows bracket = true
  | .sequence _ separator => d.separators.allows separator = true

/-! ## Shaped trees hold admitted nodes only -/

namespace Shape

variable {d : Dialect}

mutual

theorem Term.admits : ∀ {e : Expr}, Term d e → ∀ x ∈ e.nodes, d.Admits x
  | _, .identifier shape allowed => by
    rw [Expr.nodes, List.forall_mem_singleton]
    exact ⟨(Lexeme.isIdentifierText_iff _).1 shape, allowed⟩
  | _, .numeric shape allowed => by
    rw [Expr.nodes, List.forall_mem_singleton]
    exact ⟨(Lexeme.isNumericText_iff _).1 shape, allowed⟩
  | _, .literal allowed _ => by
    rw [Expr.nodes, List.forall_mem_singleton]
    exact allowed
  | _, .bracketed allowed inside => by
    rw [Expr.nodes, List.forall_mem_cons]
    exact ⟨allowed, inside.admits⟩

theorem Head.admits : ∀ {e : Expr}, Head d e → ∀ x ∈ e.nodes, d.Admits x
  | _, .bare h => h.admits
  | _, .prefixed allowed h => by
    rw [Expr.nodes, List.forall_mem_cons]
    exact ⟨allowed, h.admits⟩
  | _, .stacked allowed h _ => by
    rw [Expr.nodes, List.forall_mem_cons]
    exact ⟨allowed, h.admits⟩

theorem Operand.admits : ∀ {e : Expr}, Operand d e → ∀ x ∈ e.nodes, d.Admits x
  | _, .bare h => h.admits
  | _, .postfixed allowed h => by
    rw [Expr.nodes, List.forall_mem_cons]
    exact ⟨allowed, h.admits⟩

theorem Run.admits : ∀ {e : Expr}, Run d e → ∀ x ∈ e.nodes, d.Admits x
  | _, .single h => h.admits
  | _, .binary hleft allowed hright => by
    rw [Expr.nodes, List.forall_mem_cons, List.forall_mem_append]
    exact ⟨allowed, hleft.admits, hright.admits⟩
  | _, .chain h _ allowed hrest => by
    rw [Expr.nodes, List.forall_mem_cons, List.forall_mem_append]
    exact ⟨allowed, h.admits, Expr.forall_mem_nodesLinks fun p hp => (hrest p hp).admits⟩

theorem Operation.admits : ∀ {e : Expr}, Operation d e → ∀ x ∈ e.nodes, d.Admits x
  | _, .run h => h.admits
  | _, .sequence _ _ allowed h => by
    rw [Expr.nodes, List.forall_mem_cons]
    exact ⟨allowed, Expr.forall_mem_nodesTerms fun t ht => (h t ht).admits⟩

end

variable {e : Expr}

theorem TermOrPrefixed.admits (h : TermOrPrefixed d e) : ∀ x ∈ e.nodes, d.Admits x := by
  rcases h with h | ⟨h, -⟩
  · exact h.admits
  · exact h.admits

theorem Sequence.admits (h : Sequence d e) : ∀ x ∈ e.nodes, d.Admits x := by
  cases h with
  | operation h => exact h.admits
  | terms h _ allowed hrest =>
    rw [Expr.nodes, List.forall_mem_cons, Expr.nodesTerms, List.forall_mem_append]
    exact ⟨allowed, h.admits, Expr.forall_mem_nodesTerms fun t ht => (hrest t ht).admits⟩

end Shape

/-! ## Sources -/

namespace Grammar

/-- Whatever is read from a source, as one tree or as several, the dialect admits every node of
it. -/
theorem parse_admitted (g : Grammar) (source : Text) :
    (∀ e, g.parseSequence source = .ok e ∨ g.parseTerm source = .ok e ∨
        g.parseExpression source = .ok e →
      ∀ x ∈ e.nodes, g.dialect.Admits x) ∧
    (∀ es, g.parseTerms source = .ok es ∨ g.parseExpressions source = .ok es →
      ∀ e ∈ es, ∀ x ∈ e.nodes, g.dialect.Admits x) := by
  constructor
  · rintro e (h | h | h)
    · exact (shape_of_parseSequence h).admits
    · exact (shape_of_parseTerm h).admits
    · exact (shape_of_parseExpression h).admits
  · rintro es (h | h) e he
    · exact (shape_of_parseTerms h e he).admits
    · exact (shape_of_parseExpressions h e he).admits

/-- A dialect with one name, in which `-` is an infix operator only, and a list of terms. -/
theorem parse_admitted_restricted :
    (({ dialect := { identifiers := .only (.ofList ["a".toList]), prefixes := .none } } :
        Grammar).parseSequence "a - (a) 1".toList =
        .ok (.sequence [.binary (.identifier "a".toList) .minus
          (.bracketed .parenthesis (.identifier "a".toList)), .numeric "1".toList] .space) ∧
      ∀ x ∈ (Expr.sequence [.binary (.identifier "a".toList) .minus
          (.bracketed .parenthesis (.identifier "a".toList)), .numeric "1".toList] .space).nodes,
        Dialect.Admits { identifiers := .only (.ofList ["a".toList]), prefixes := .none } x) ∧
    (({ dialect := { quotes := .only (.ofList [.single]) } } : Grammar).parseTerms
        "x'y' 0b1".toList =
        .ok [.identifier "x".toList, .literal .single "y".toList, .numeric "0b1".toList] ∧
      ∀ e ∈ [Expr.identifier "x".toList, .literal .single "y".toList, .numeric "0b1".toList],
        ∀ x ∈ e.nodes, Dialect.Admits { quotes := .only (.ofList [.single]) } x) :=
  ⟨⟨by decide +kernel, (parse_admitted
      { dialect := { identifiers := .only (.ofList ["a".toList]), prefixes := .none } }
      "a - (a) 1".toList).1 _ (.inl (by decide +kernel))⟩,
    ⟨by decide +kernel, (parse_admitted { dialect := { quotes := .only (.ofList [.single]) } }
      "x'y' 0b1".toList).2 _ (.inl (by decide +kernel))⟩⟩

end Grammar

end FlatExpr
