import Mathlib.Tactic.SplitIfs
import Mathlib.Tactic.Tauto
import FlatExpr.Grammar.Basic
import FlatExpr.Proofs.Lexemes

/-!
# Symbols and categories by text

Whatever a dialect says about a lexeme it says about its text. Apart from brackets every member of a
vocabulary is recognised by its symbol alone (`OneSpelling`), so that a text is read as a member
exactly when it is the symbol of that member and the member is allowed
(`Allowed.spelled?_eq_some_iff`). The categories on which the grammar decides are characterised in
the same way (`Lexeme.classify_eq_prefixOp_iff` and its siblings). A word is never reported as
disallowed, since it is no symbol (`Lexeme.disallowedCategory_of_isWord`).
-/

namespace FlatExpr

/-! ## Vocabularies with one spelling -/

/-- A vocabulary whose members are recognised by their symbol alone. -/
class OneSpelling (α : Type) [Vocabulary α] : Prop where
  /-- A text is read as the member whose symbol it is. -/
  ofSymbol?_eq_some_iff : ∀ (t : Text) (a : α),
    Vocabulary.ofSymbol? α t = some a ↔ t = Vocabulary.symbol a
  /-- No symbol is empty. -/
  symbol_ne_nil : ∀ a : α, Vocabulary.symbol a ≠ []

/-- It is enough that each member is spelled and found by its symbol. -/
theorem OneSpelling.of_found {α : Type} [Vocabulary α]
    (hspell : ∀ a : α, Vocabulary.spellings a = [Vocabulary.symbol a])
    (hfound : ∀ a : α, Vocabulary.ofSymbol? α (Vocabulary.symbol a) = some a)
    (hne : ∀ a : α, Vocabulary.symbol a ≠ []) : OneSpelling α where
  ofSymbol?_eq_some_iff t a := by
    constructor
    · intro h
      have hmem := List.find?_some h
      rw [hspell a] at hmem
      simpa using hmem
    · rintro rfl
      exact hfound a
  symbol_ne_nil := hne

instance : OneSpelling InfixOp :=
  .of_found (fun _ => rfl) (by intro a; cases a <;> rfl) (by intro a; cases a <;> decide)

instance : OneSpelling PrefixOp :=
  .of_found (fun _ => rfl) (by intro a; cases a <;> rfl) (by intro a; cases a <;> decide)

instance : OneSpelling PostfixOp :=
  .of_found (fun _ => rfl) (by intro a; cases a <;> rfl) (by intro a; cases a <;> decide)

instance : OneSpelling Quote :=
  .of_found (fun _ => rfl) (by intro a; cases a <;> rfl) (by intro a; cases a <;> decide)

instance : OneSpelling Separator :=
  .of_found (fun _ => rfl) (by intro a; cases a <;> rfl) (by intro a; cases a <;> decide)

namespace Allowed

variable {α : Type} [Vocabulary α] [DecidableEq α]

/-- The allowed member that a text spells. -/
def spelled? (allowed : Allowed α) (t : Text) : Option α :=
  allowed.permit (Vocabulary.ofSymbol? α t)

/-- The allowed member that the first of some words spells. -/
def leading? (allowed : Allowed α) (ws : List Text) : Option α := allowed.spelled? (ws.headD [])

@[simp] theorem leading?_cons (allowed : Allowed α) (t : Text) (ws : List Text) :
    allowed.leading? (t :: ws) = allowed.spelled? t := rfl

variable [OneSpelling α]

/-- A text is read as a member exactly when it is the symbol of that member and the member is
allowed. -/
theorem spelled?_eq_some_iff (allowed : Allowed α) (t : Text) (a : α) :
    allowed.spelled? t = some a ↔ t = Vocabulary.symbol a ∧ allowed.allows a = true := by
  unfold spelled? permit
  rw [Option.filter_eq_some_iff, OneSpelling.ofSymbol?_eq_some_iff]

/-- An allowed member is read from its symbol. -/
theorem spelled?_symbol {allowed : Allowed α} {a : α} (h : allowed.allows a = true) :
    allowed.spelled? (Vocabulary.symbol a) = some a :=
  (spelled?_eq_some_iff _ _ _).2 ⟨rfl, h⟩

/-- Where an allowed member leads, its symbol is the first word. -/
theorem leading?_eq_some_iff (allowed : Allowed α) (ws : List Text) (a : α) :
    allowed.leading? ws = some a ↔
      ∃ rest, ws = Vocabulary.symbol a :: rest ∧ allowed.allows a = true := by
  cases ws with
  | nil =>
    unfold leading?
    rw [spelled?_eq_some_iff]
    constructor
    · rintro ⟨h, -⟩
      exact absurd h.symm (OneSpelling.symbol_ne_nil a)
    · rintro ⟨rest, h, -⟩
      cases h
  | cons t ws =>
    rw [leading?_cons, spelled?_eq_some_iff]
    constructor
    · rintro ⟨rfl, h⟩
      exact ⟨ws, rfl, h⟩
    · rintro ⟨rest, hws, h⟩
      exact ⟨(List.cons.inj hws).1, h⟩

/-- Nothing leads an empty list of words. -/
@[simp] theorem leading?_nil (allowed : Allowed α) : allowed.leading? [] = Option.none := by
  rw [Option.eq_none_iff_forall_ne_some]
  intro a h
  obtain ⟨rest, hnil, -⟩ := (leading?_eq_some_iff allowed [] a).1 h
  cases hnil

end Allowed

/-! ## Brackets -/

namespace Bracket

/-- A bracket is recognised by its opening and by its closing. -/
theorem ofSymbol?_eq_some_iff (t : Text) (b : Bracket) :
    Vocabulary.ofSymbol? Bracket t = some b ↔ t = b.opening ∨ t = b.closing := by
  constructor
  · intro h
    have hmem := List.find?_some h
    simpa [Vocabulary.spellings] using hmem
  · rintro (rfl | rfl) <;> cases b <;> rfl

theorem opening_inj {b b' : Bracket} : b.opening = b'.opening ↔ b = b' := by
  cases b <;> cases b' <;> decide

theorem opening_ne_nil (b : Bracket) : b.opening ≠ [] := by cases b <;> exact List.cons_ne_nil _ _

theorem closing_ne_nil (b : Bracket) : b.closing ≠ [] := by cases b <;> exact List.cons_ne_nil _ _

@[simp] theorem isOpening_opening (b : Bracket) : isOpening b.opening = true := by
  cases b <;> rfl

@[simp] theorem isOpening_closing (b : Bracket) : isOpening b.closing = false := by
  cases b <;> rfl

@[simp] theorem isClosing_closing (b : Bracket) : isClosing b.closing = true := by
  cases b <;> rfl

@[simp] theorem isClosing_opening (b : Bracket) : isClosing b.opening = false := by
  cases b <;> rfl

end Bracket

namespace Grammar

variable (g : Grammar)

/-- A lexeme opens the allowed bracket whose opening it is. -/
theorem opens?_eq_some_iff (l : Lexeme) (b : Bracket) :
    g.opens? l = some b ↔ l.text = b.opening ∧ g.dialect.brackets.allows b = true := by
  unfold opens? Lexeme.toBracket Allowed.permit
  constructor
  · intro h
    split_ifs at h with hopen
    obtain ⟨hsym, hallowed⟩ := Option.filter_eq_some_iff.1 h
    refine ⟨?_, hallowed⟩
    rcases (Bracket.ofSymbol?_eq_some_iff _ _).1 hsym with ht | ht
    · exact ht
    · rw [ht, Bracket.isOpening_closing] at hopen
      cases hopen
  · rintro ⟨ht, hallowed⟩
    rw [ht, if_pos b.isOpening_opening, ← ht]
    exact Option.filter_eq_some_iff.2 ⟨(Bracket.ofSymbol?_eq_some_iff _ _).2 (.inl ht), hallowed⟩

/-- A lexeme closes the allowed bracket whose closing it is. -/
theorem closes?_eq_some_iff (l : Lexeme) (b : Bracket) :
    g.closes? l = some b ↔ l.text = b.closing ∧ g.dialect.brackets.allows b = true := by
  unfold closes? Lexeme.toBracket Allowed.permit
  constructor
  · intro h
    split_ifs at h with hclose
    obtain ⟨hsym, hallowed⟩ := Option.filter_eq_some_iff.1 h
    refine ⟨?_, hallowed⟩
    rcases (Bracket.ofSymbol?_eq_some_iff _ _).1 hsym with ht | ht
    · rw [ht, Bracket.isClosing_opening] at hclose
      cases hclose
    · exact ht
  · rintro ⟨ht, hallowed⟩
    rw [ht, if_pos b.isClosing_closing, ← ht]
    exact Option.filter_eq_some_iff.2 ⟨(Bracket.ofSymbol?_eq_some_iff _ _).2 (.inr ht), hallowed⟩

end Grammar

/-! ## Shapes of words -/

namespace Lexeme

/-- The word characters that identifiers and numerics are made of are ASCII characters. -/
theorem toNat_lt_of_word {c : Char} (h : startsIdentifier c = true ∨ c.isDigit = true) :
    c.toNat < 128 := by
  have hval : c.toNat = c.val.toNat := rfl
  have halpha : c.isAlpha = (c.isUpper || c.isLower) := rfl
  have hupper : c.isUpper = decide (c.val ≥ 'A'.val ∧ c.val ≤ 'Z'.val) := rfl
  have hlower : c.isLower = (decide (c.val ≥ 'a'.val) && decide (c.val ≤ 'z'.val)) := rfl
  simp only [startsIdentifier, halpha, hupper, hlower, Char.isDigit, Bool.or_eq_true,
    Bool.and_eq_true, decide_eq_true_eq, beq_iff_eq, ge_iff_le, UInt32.le_iff_toNat_le] at h
  rcases h with (((⟨-, h⟩ | ⟨-, h⟩) | rfl) | rfl) | ⟨-, h⟩
  · exact hval ▸ lt_of_le_of_lt h (by decide)
  · exact hval ▸ lt_of_le_of_lt h (by decide)
  · decide
  · decide
  · exact hval ▸ lt_of_le_of_lt h (by decide)

/-- Identifiers and numerics are made of word characters, and no character starts both. -/
theorem kind_of_word {c : Char} (h : startsIdentifier c = true ∨ c.isDigit = true) :
    (CharKind.of c).isWord = true ∧ (startsIdentifier c = true → c.isDigit = false) := by
  have htable : ∀ n < 128,
      startsIdentifier (Char.ofNat n) = true ∨ (Char.ofNat n).isDigit = true →
        (CharKind.of (Char.ofNat n)).isWord = true ∧
          (startsIdentifier (Char.ofNat n) = true → (Char.ofNat n).isDigit = false) := by
    decide +kernel
  have hc := htable c.toNat (toNat_lt_of_word h)
  rw [Char.ofNat_toNat] at hc
  exact hc h

/-- Word characters are no white space. -/
theorem not_isWhite_of_isWord {c : Char} (h : (CharKind.of c).isWord = true) :
    Text.isWhite c = false := by
  rw [← Bool.not_eq_true, ← CharKind.of_eq_whitespace_iff]
  intro hwhite
  rw [hwhite] at h
  cases h

/-- All characters of an identifier are word characters. -/
theorem isWord_of_isIdentifierText {t : Text} (h : isIdentifierText t = true) : Text.IsWord t := by
  cases t with
  | nil => cases h
  | cons c cs =>
    simp only [isIdentifierText, Bool.and_eq_true, List.all_eq_true, Bool.or_eq_true] at h
    refine ⟨List.cons_ne_nil _ _, fun x hx => ?_⟩
    rcases List.mem_cons.1 hx with rfl | hx
    · exact (kind_of_word (.inl h.1)).1
    · exact (kind_of_word (h.2 x hx)).1

/-- All characters of a numeric are word characters. -/
theorem isWord_of_isNumericText {t : Text} (h : isNumericText t = true) : Text.IsWord t := by
  cases t with
  | nil => cases h
  | cons c cs =>
    simp only [isNumericText, Bool.and_eq_true, List.all_eq_true, Bool.or_eq_true, beq_iff_eq,
      Char.isAlphanum] at h
    refine ⟨List.cons_ne_nil _ _, fun x hx => ?_⟩
    rcases List.mem_cons.1 hx with rfl | hx
    · exact (kind_of_word (.inr h.1)).1
    · refine (kind_of_word ?_).1
      rcases h.2 x hx with (hx | hx) | hx
      · exact .inl (by simp [startsIdentifier, hx])
      · exact .inr hx
      · exact .inl (by simp [startsIdentifier, hx])

/-- A text of word characters is not blank. -/
theorem isBlank_of_word {t : Text} (h : Text.IsWord t) :
    Text.isBlank t = false := by
  cases t with
  | nil => rfl
  | cons c cs =>
    exact Text.isBlank_cons_of_not_white (not_isWhite_of_isWord (h.2 c (by simp)))

/-- No text is both an identifier and a numeric. -/
theorem isNumericText_of_isIdentifierText {t : Text} (h : isIdentifierText t = true) :
    isNumericText t = false := by
  cases t with
  | nil => rfl
  | cons c cs =>
    simp only [isIdentifierText, Bool.and_eq_true] at h
    simp [isNumericText, (kind_of_word (.inl h.1)).2 h.1]

end Lexeme

/-! ## Categories -/

namespace Lexeme

variable {d : Dialect} {l : Lexeme}

/-- Whether the lexeme can be a symbol: its text is neither empty nor blank and has none of the
shapes of words. -/
def isSymbolic (l : Lexeme) : Bool :=
  !l.isTerminal && !l.isWhitespace && !l.isIdentifier && !l.isNumeric

/-- What the category of a lexeme can be, and why. -/
theorem classify_cases {category : Category} (h : l.classify d = .ok category) :
    (l.text = [] ∧ category = .terminal) ∨
      (Text.isBlank l.text = true ∧ category = .whitespace) ∨
      (isIdentifierText l.text = true ∧ d.identifiers.allows l.text = true ∧
        category = .identifier l.text) ∨
      (isNumericText l.text = true ∧ d.numerics.allows l.text = true ∧
        category = .numeric l.text) ∨
      (l.isSymbolic = true ∧ category = l.symbolCategory d) := by
  unfold classify at h
  split_ifs at h with hterminal hblank
  · exact .inl ⟨by simpa [isTerminal] using hterminal, (Except.ok.inj h).symm⟩
  · exact .inr (.inl ⟨hblank, (Except.ok.inj h).symm⟩)
  unfold toIdentifier toNumeric Allowed.require at h
  by_cases hi : l.isIdentifier = true
  · by_cases hallowed : d.identifiers.allows l.text = true
    · rw [if_pos hi, if_pos hallowed] at h
      exact .inr (.inr (.inl ⟨hi, hallowed, (Except.ok.inj h).symm⟩))
    · rw [if_pos hi, if_neg hallowed] at h
      cases h
  rw [if_neg hi] at h
  by_cases hn : l.isNumeric = true
  · by_cases hallowed : d.numerics.allows l.text = true
    · rw [if_pos hn, if_pos hallowed] at h
      exact .inr (.inr (.inr (.inl ⟨hn, hallowed, (Except.ok.inj h).symm⟩)))
    · rw [if_pos hn, if_neg hallowed] at h
      cases h
  rw [if_neg hn] at h
  refine .inr (.inr (.inr (.inr ⟨?_, (Except.ok.inj h).symm⟩)))
  simp [isSymbolic, hterminal, hblank, hi, hn]

/-- The category of a symbol is found among the vocabularies. -/
theorem classify_of_isSymbolic (h : l.isSymbolic = true) :
    l.classify d = .ok (l.symbolCategory d) := by
  simp only [isSymbolic, Bool.and_eq_true, Bool.not_eq_true'] at h
  obtain ⟨⟨⟨hterminal, hblank⟩, hi⟩, hn⟩ := h
  simp [classify, hterminal, hblank, toIdentifier, hi, toNumeric, hn]

/-- The category of a symbol is none of the shapes of words. -/
theorem symbolCategory_ne (text : Text) : l.symbolCategory d ≠ .identifier text ∧
    l.symbolCategory d ≠ .numeric text := by
  unfold symbolCategory
  repeat' split
  all_goals exact ⟨nofun, nofun⟩

/-- A lexeme is an allowed identifier exactly when its text is one. -/
theorem classify_eq_identifier_iff (name : Text) :
    l.classify d = .ok (.identifier name) ↔
      l.text = name ∧ isIdentifierText name = true ∧ d.identifiers.allows name = true := by
  constructor
  · intro h
    rcases classify_cases h with ⟨-, h⟩ | ⟨-, h⟩ | ⟨hi, hallowed, h⟩ | ⟨-, -, h⟩ | ⟨-, h⟩
    · cases h
    · cases h
    · cases h
      exact ⟨rfl, hi, hallowed⟩
    · cases h
    · exact absurd h.symm (symbolCategory_ne name).1
  · rintro ⟨rfl, hshape, hallowed⟩
    have hword := isWord_of_isIdentifierText hshape
    have hblank : l.isWhitespace = false := isBlank_of_word hword
    have hne : l.isTerminal = false := by simp [isTerminal, hword.1]
    simp [classify, hne, hblank, toIdentifier, isIdentifier, hshape, Allowed.require, hallowed,
      Except.map]

/-- A lexeme is an allowed numeric exactly when its text is one. -/
theorem classify_eq_numeric_iff (value : Text) :
    l.classify d = .ok (.numeric value) ↔
      l.text = value ∧ isNumericText value = true ∧ d.numerics.allows value = true := by
  constructor
  · intro h
    rcases classify_cases h with ⟨-, h⟩ | ⟨-, h⟩ | ⟨-, -, h⟩ | ⟨hn, hallowed, h⟩ | ⟨-, h⟩
    · cases h
    · cases h
    · cases h
    · cases h
      exact ⟨rfl, hn, hallowed⟩
    · exact absurd h.symm (symbolCategory_ne value).2
  · rintro ⟨rfl, hshape, hallowed⟩
    have hword := isWord_of_isNumericText hshape
    have hblank : l.isWhitespace = false := isBlank_of_word hword
    have hne : l.isTerminal = false := by simp [isTerminal, hword.1]
    have hi : isIdentifierText l.text = false := by
      by_contra hi
      rw [Bool.not_eq_false] at hi
      rw [isNumericText_of_isIdentifierText hi] at hshape
      cases hshape
    simp [classify, hne, hblank, toIdentifier, isIdentifier, hi, toNumeric, isNumeric, hshape,
      Allowed.require, hallowed, Except.map]

/-- A category other than those without a symbol is the one found among the vocabularies. -/
theorem classify_eq_symbol_iff {category : Category} (hterminal : category ≠ .terminal)
    (hblank : category ≠ .whitespace) (hi : ∀ name, category ≠ .identifier name)
    (hn : ∀ value, category ≠ .numeric value) :
    l.classify d = .ok category ↔ l.isSymbolic = true ∧ l.symbolCategory d = category := by
  constructor
  · intro h
    rcases classify_cases h with ⟨-, h⟩ | ⟨-, h⟩ | ⟨-, -, h⟩ | ⟨-, -, h⟩ | ⟨hsym, h⟩
    · exact absurd h hterminal
    · exact absurd h hblank
    · exact absurd h (hi _)
    · exact absurd h (hn _)
    · exact ⟨hsym, h.symm⟩
  · rintro ⟨hsym, rfl⟩
    exact classify_of_isSymbolic hsym

/-- A lexeme is a prefix operator exactly when it is the symbol of an allowed one. -/
theorem classify_eq_prefixOp_iff (op : PrefixOp) :
    l.classify d = .ok (.prefixOp op) ↔ l.text = op.symbol ∧ d.prefixes.allows op = true := by
  rw [classify_eq_symbol_iff (by simp) (by simp) (by simp) (by simp)]
  constructor
  · rintro ⟨-, h⟩
    have hop : l.toPrefixOp d = some op := by
      unfold symbolCategory at h
      repeat' split at h
      all_goals cases h
      assumption
    exact (Allowed.spelled?_eq_some_iff _ _ _).1 hop
  · rintro ⟨ht, hallowed⟩
    have hop : l.toPrefixOp d = some op := (Allowed.spelled?_eq_some_iff _ _ _).2 ⟨ht, hallowed⟩
    refine ⟨?_, by simp [symbolCategory, hop]⟩
    unfold isSymbolic isTerminal isIdentifier isNumeric
    rw [isWhitespace_eq, ht]
    cases op <;> decide

/-- A lexeme is a quotation mark exactly when it is the symbol of an allowed one. -/
theorem classify_eq_quote_iff (q : Quote) :
    l.classify d = .ok (.quote q) ↔ l.text = q.symbol ∧ d.quotes.allows q = true := by
  rw [classify_eq_symbol_iff (by simp) (by simp) (by simp) (by simp)]
  constructor
  · rintro ⟨-, h⟩
    have hq : l.toQuote d = some q := by
      unfold symbolCategory at h
      repeat' split at h
      all_goals cases h
      assumption
    exact (Allowed.spelled?_eq_some_iff _ _ _).1 hq
  · rintro ⟨ht, hallowed⟩
    have hq : l.toQuote d = some q := (Allowed.spelled?_eq_some_iff _ _ _).2 ⟨ht, hallowed⟩
    constructor
    · unfold isSymbolic isTerminal isIdentifier isNumeric
      rw [isWhitespace_eq, ht]
      cases q <;> decide
    · have hpre : l.toPrefixOp d = none := by unfold toPrefixOp; rw [ht]; cases q <;> rfl
      have hin : l.toInfixOp d = none := by unfold toInfixOp; rw [ht]; cases q <;> rfl
      have hpost : l.toPostfixOp d = none := by unfold toPostfixOp; rw [ht]; cases q <;> rfl
      simp [symbolCategory, hpre, hin, hpost, hq]

/-- A lexeme opens a bracket where a term is called for exactly when it is the opening of an allowed
one and not an allowed infix operator, which only the angle can be. -/
theorem classify_eq_opening_iff (b : Bracket) :
    l.classify d = .ok (.bracket b true) ↔
      l.text = b.opening ∧ d.brackets.allows b = true ∧
        (b = .angle → d.infixes.allows .lt = false) := by
  rw [classify_eq_symbol_iff (by simp) (by simp) (by simp) (by simp)]
  constructor
  · rintro ⟨-, h⟩
    have hb : l.toInfixOp d = none ∧ l.toBracket d = some b ∧ Bracket.isOpening l.text = true := by
      unfold symbolCategory at h
      repeat' split at h
      all_goals simp_all
    obtain ⟨hin, hbracket, hopen⟩ := hb
    obtain ⟨ht, hallowed⟩ := (({ dialect := d } : Grammar).opens?_eq_some_iff l b).1
      (by unfold Grammar.opens?; rw [if_pos hopen]; exact hbracket)
    refine ⟨ht, hallowed, ?_⟩
    rintro rfl
    by_contra hlt
    rw [Bool.not_eq_false] at hlt
    have : l.toInfixOp d = some .lt := (Allowed.spelled?_eq_some_iff _ _ _).2 ⟨ht, hlt⟩
    rw [hin] at this
    cases this
  · rintro ⟨ht, hallowed, hangle⟩
    have hbracket : l.toBracket d = some b := by
      unfold toBracket Allowed.permit
      exact Option.filter_eq_some_iff.2 ⟨(Bracket.ofSymbol?_eq_some_iff _ _).2 (.inl ht), hallowed⟩
    have hin : l.toInfixOp d = none := by
      unfold toInfixOp
      rw [ht]
      cases b with
      | angle =>
        show (some InfixOp.lt).filter d.infixes.allows = none
        simp [hangle rfl]
      | _ => rfl
    constructor
    · unfold isSymbolic isTerminal isIdentifier isNumeric
      rw [isWhitespace_eq, ht]
      cases b <;> decide
    · have hpre : l.toPrefixOp d = none := by unfold toPrefixOp; rw [ht]; cases b <;> rfl
      have hpost : l.toPostfixOp d = none := by unfold toPostfixOp; rw [ht]; cases b <;> rfl
      have hquote : l.toQuote d = none := by unfold toQuote; rw [ht]; cases b <;> rfl
      simp [symbolCategory, hpre, hin, hpost, hquote, hbracket, ht]

end Lexeme

/-! ## Verdicts -/

/-- A vocabulary whose symbols are no words. -/
class Wordless (α : Type) [Vocabulary α] : Prop where
  /-- No spelling consists of word characters. -/
  not_isWord : ∀ a : α, ∀ t ∈ Vocabulary.spellings a,
    t.all (fun c => (CharKind.of c).isWord) = false

instance : Wordless PrefixOp := ⟨by intro a; cases a <;> decide⟩

instance : Wordless InfixOp := ⟨by intro a; cases a <;> decide⟩

instance : Wordless PostfixOp := ⟨by intro a; cases a <;> decide⟩

instance : Wordless Quote := ⟨by intro a; cases a <;> decide⟩

instance : Wordless Bracket := ⟨by intro a; cases a <;> decide⟩

instance : Wordless Separator := ⟨by intro a; cases a <;> decide⟩

namespace Lexeme

variable {d : Dialect} {l : Lexeme}

/-- Such a vocabulary has no verdict on a word. -/
theorem verdict_of_isWord {α : Type} [Vocabulary α] [DecidableEq α] [Wordless α]
    (allowed : Allowed α) {t : Text} (h : Text.IsWord t) : verdict allowed t = none := by
  have hnone : Vocabulary.ofSymbol? α t = none := by
    rw [Vocabulary.ofSymbol?, List.find?_eq_none]
    intro a _ hmem
    have hall : t.all (fun c => (CharKind.of c).isWord) = true := List.all_eq_true.2 h.2
    rw [Wordless.not_isWord a t (List.contains_iff_mem.1 hmem)] at hall
    cases hall
  rw [verdict, hnone, Option.map_none]

/-- A word of identifier or number characters is not reported. -/
theorem disallowedCategory_of_isWord (h : Text.IsWord l.text) :
    l.disallowedCategory d = none := by
  simp [disallowedCategory, verdicts, verdict_of_isWord _ h]

/-- The verdict on a symbol that is allowed. -/
theorem verdict_of_spelled {α : Type} [Vocabulary α] [DecidableEq α] {allowed : Allowed α}
    {t : Text} {a : α} (h : allowed.spelled? t = some a) : verdict allowed t = some true := by
  obtain ⟨hfound, hallowed⟩ := Option.filter_eq_some_iff.1 h
  rw [verdict, hfound, Option.map_some, hallowed]

/-- A symbol that is allowed in some category is not reported. -/
theorem disallowedCategory_of_allowed (category : Expected)
    (h : (some true, category) ∈ l.verdicts d) : l.disallowedCategory d = none := by
  have hany : (l.verdicts d).any (fun v => v.1 == some true) = true :=
    List.any_eq_true.2 ⟨_, h, rfl⟩
  rw [disallowedCategory, if_pos hany]

end Lexeme

namespace Grammar

variable (g : Grammar)

/-- Whether an operand can start with a lexeme depends on its text alone. -/
theorem startsOperand_congr {l m : Lexeme} (h : l.text = m.text) :
    g.startsOperand l = g.startsOperand m := by
  obtain ⟨source, start, t, rest, reads⟩ := l
  obtain ⟨source', start', t', rest', reads'⟩ := m
  obtain rfl : t = t' := h
  by_cases hi : Lexeme.isIdentifierText t = true
  · simp [startsOperand, Lexeme.isIdentifier, hi]
  by_cases hn : Lexeme.isNumericText t = true
  · simp [startsOperand, Lexeme.isNumeric, hn]
  -- the category of any other lexeme holds no offset
  have hcategory : Lexeme.classify g.dialect ⟨source, start, t, rest, reads⟩ =
      Lexeme.classify g.dialect ⟨source', start', t, rest', reads'⟩ := by
    simp only [Lexeme.classify, Lexeme.toIdentifier, Lexeme.toNumeric, Lexeme.isIdentifier,
      Lexeme.isNumeric, hi, hn]
    rfl
  simp only [startsOperand, Lexeme.isIdentifier, Lexeme.isNumeric, hcategory]

end Grammar

end FlatExpr
