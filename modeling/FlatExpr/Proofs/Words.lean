import Mathlib.Data.List.ReduceOption
import FlatExpr.Proofs.Symbols

/-!
# The words of a source

White space matters inside literals only, where it is part of the text, and between the terms of a
sequence. This module makes that precise. A pass over the texts of some lexemes (`Scan`) knows
whether it stands inside a literal. Outside, a blank lexeme is a *gap* and any other a *word*; the
text of a literal is one word, whatever it consists of. So a list of lexemes has `tokens`, which are
words (`some`) and gaps (`none`), and it has `words`, the tokens without the gaps.

A list of lexemes that leaves no literal open is `Closed`; tokens and words of such a list and of
what follows it are put together by concatenation (`tokens_append`, `words_append`).
-/

namespace FlatExpr

/-- Where a pass over lexemes stands. -/
inductive Scan where
  /-- Outside literals. -/
  | outside
  /-- In a literal that `quote` opened, after `text`. -/
  | inside (quote : Quote) (text : Text)

namespace Scan

variable (d : Dialect)

/-- Where the pass stands after one more lexeme. -/
def next : Scan → Text → Scan
  | .outside, t =>
    match d.quotes.spelled? t with
    | some quote => .inside quote []
    | none => .outside
  | .inside quote text, t =>
    if d.quotes.spelled? t = some quote then .outside else .inside quote (text ++ t)

/-- The tokens that one more lexeme completes. -/
def emit : Scan → Text → List (Option Text)
  | .outside, t => if Text.isBlank t then [none] else [some t]
  | .inside quote text, t => if d.quotes.spelled? t = some quote then [some text, some t] else []

/-- The text of a literal that is left open. -/
def pending : Scan → List (Option Text)
  | .outside => []
  | .inside _ text => [some text]

/-- Where the pass stands after some lexemes. -/
def after (s : Scan) (ts : List Text) : Scan := ts.foldl (next d) s

/-- The tokens that some lexemes complete. -/
def passed : Scan → List Text → List (Option Text)
  | _, [] => []
  | s, t :: ts => s.emit d t ++ passed (s.next d t) ts

@[simp] theorem after_append (s : Scan) (ts us : List Text) :
    s.after d (ts ++ us) = (s.after d ts).after d us :=
  List.foldl_append

@[simp] theorem after_cons (s : Scan) (t : Text) (ts : List Text) :
    s.after d (t :: ts) = (s.next d t).after d ts := rfl

@[simp] theorem after_nil (s : Scan) : s.after d [] = s := rfl

@[simp] theorem passed_append (s : Scan) (ts us : List Text) :
    s.passed d (ts ++ us) = s.passed d ts ++ (s.after d ts).passed d us := by
  induction ts generalizing s with
  | nil => rfl
  | cons t ts ih => simp [passed, ih]

end Scan

/-- The words and the gaps of a list of lexemes, given by their texts. -/
def tokens (d : Dialect) (ts : List Text) : List (Option Text) :=
  Scan.outside.passed d ts ++ (Scan.outside.after d ts).pending

/-- The words of a list of lexemes: blanks outside literals are left out, and the text of a literal
is one word. -/
def words (d : Dialect) (ts : List Text) : List Text := (tokens d ts).reduceOption

/-- The lexemes leave no literal open. -/
def Closed (d : Dialect) (ts : List Text) : Prop := Scan.outside.after d ts = .outside

/-! ## Concatenation -/

section Concatenation

variable {d : Dialect} {ts us : List Text}

/-- The tokens after lexemes that leave no literal open do not depend on those lexemes. -/
theorem tokens_append (h : Closed d ts) : tokens d (ts ++ us) = tokens d ts ++ tokens d us := by
  unfold Closed at h
  unfold tokens
  rw [Scan.passed_append, Scan.after_append, h]
  simp [Scan.pending]

theorem words_append (h : Closed d ts) : words d (ts ++ us) = words d ts ++ words d us := by
  unfold words
  rw [tokens_append h, List.reduceOption_append]

theorem Closed.append (ht : Closed d ts) (hu : Closed d us) : Closed d (ts ++ us) := by
  unfold Closed at *
  rw [Scan.after_append, ht, hu]

theorem closed_nil (d : Dialect) : Closed d [] := rfl

@[simp] theorem words_nil (d : Dialect) : words d [] = [] := rfl

end Concatenation

/-! ## Single lexemes -/

section Single

variable {d : Dialect} {t : Text}

/-- No quotation mark is blank. -/
theorem spelled?_quote_of_isBlank (h : Text.isBlank t = true) : d.quotes.spelled? t = none := by
  rw [Option.eq_none_iff_forall_ne_some]
  intro q hq
  obtain ⟨rfl, -⟩ := (Allowed.spelled?_eq_some_iff _ _ _).1 hq
  cases q <;> revert h <;> decide

/-- A lexeme that is no quotation mark opens no literal. -/
theorem closed_singleton (h : d.quotes.spelled? t = none) : Closed d [t] := by
  simp [Closed, Scan.next, h]

/-- A blank lexeme is a gap. -/
theorem tokens_blank (h : Text.isBlank t = true) : tokens d [t] = [none] := by
  simp [tokens, Scan.passed, Scan.emit, h, Scan.next, spelled?_quote_of_isBlank h, Scan.pending]

/-- A lexeme that is neither blank nor a quotation mark is a word. -/
theorem tokens_word (hblank : Text.isBlank t = false) (h : d.quotes.spelled? t = none) :
    tokens d [t] = [some t] := by
  simp [tokens, Scan.passed, Scan.emit, hblank, Scan.next, h, Scan.pending]

/-- A blank lexeme adds no word. -/
theorem words_cons_blank (h : Text.isBlank t = true) (ts : List Text) :
    words d (t :: ts) = words d ts := by
  rw [← List.singleton_append, words_append (closed_singleton (spelled?_quote_of_isBlank h)),
    words, tokens_blank h]
  rfl

/-- Blank lexemes add no words. -/
theorem words_blank_append {ts : List Text} (h : ∀ t ∈ ts, Text.isBlank t = true)
    (us : List Text) : words d (ts ++ us) = words d us := by
  induction ts with
  | nil => rfl
  | cons t ts ih =>
    rw [List.forall_mem_cons] at h
    rw [List.cons_append, words_cons_blank h.1, ih h.2]

/-- A lexeme that is neither blank nor a quotation mark is the first word. -/
theorem words_cons_word (hblank : Text.isBlank t = false) (h : d.quotes.spelled? t = none)
    (ts : List Text) : words d (t :: ts) = t :: words d ts := by
  rw [← List.singleton_append, words_append (closed_singleton h), words, tokens_word hblank h]
  rfl

/-- The first word of lexemes that start with one that is not blank is the text of that lexeme. -/
theorem words_cons_head (hblank : Text.isBlank t = false) (ts : List Text) :
    ∃ ws, words d (t :: ts) = t :: ws := by
  simp [words, tokens, Scan.passed, Scan.emit, hblank]

/-- Lexemes that leave no literal open end in a gap exactly when the last of them is blank. -/
theorem getLast?_tokens_concat {ts : List Text} (h : Closed d (ts ++ [t])) :
    (tokens d (ts ++ [t])).getLast? = some none ↔ Text.isBlank t = true := by
  unfold Closed at h
  unfold tokens
  rw [h, Scan.passed_append]
  rw [Scan.after_append, Scan.after_cons, Scan.after_nil] at h
  cases hs : Scan.outside.after d ts with
  | outside => cases hb : Text.isBlank t <;> simp [Scan.passed, Scan.emit, Scan.pending, hb]
  | inside quote text =>
    -- the last lexeme closes the literal, so that it is a quotation mark
    rw [hs, Scan.next] at h
    split_ifs at h with hq
    have hb : Text.isBlank t = false := by
      by_contra hb
      rw [spelled?_quote_of_isBlank (by simpa using hb)] at hq
      cases hq
    simp [Scan.passed, Scan.emit, hq, Scan.pending, hb]

end Single

/-! ## Literals -/

section Literals

variable {d : Dialect} {q : Quote} {content : List Text}

/-- A pass stays in a literal up to the mark that closes it. -/
theorem Scan.after_inside (text : Text) (h : ∀ t ∈ content, d.quotes.spelled? t ≠ some q) :
    (Scan.inside q text).after d content = .inside q (text ++ content.flatten) ∧
      (Scan.inside q text).passed d content = [] := by
  induction content generalizing text with
  | nil => simp [passed]
  | cons t content ih =>
    have ht : d.quotes.spelled? t ≠ some q := h t (by simp)
    obtain ⟨hafter, hpassed⟩ := ih (text ++ t) fun u hu => h u (by simp [hu])
    simp [next, emit, ht, hafter, passed, hpassed]

variable (hq : d.quotes.allows q = true) (h : ∀ t ∈ content, d.quotes.spelled? t ≠ some q)

include hq h

/-- A literal leaves nothing open. -/
theorem closed_literal : Closed d (q.symbol :: content ++ [q.symbol]) := by
  have hsym : d.quotes.spelled? q.symbol = some q := Allowed.spelled?_symbol hq
  simp [Closed, Scan.next, hsym, (Scan.after_inside [] h).1]

/-- The words of a literal: the mark, the text and the mark. -/
theorem tokens_literal : tokens d (q.symbol :: content ++ [q.symbol]) =
    [some q.symbol, some content.flatten, some q.symbol] := by
  have hsym : d.quotes.spelled? q.symbol = some q := Allowed.spelled?_symbol hq
  have hblank : Text.isBlank q.symbol = false := by cases q <;> decide
  obtain ⟨hafter, hpassed⟩ := Scan.after_inside [] h
  simp [tokens, Scan.passed, Scan.next, hsym, Scan.emit, hblank, hafter, hpassed, Scan.pending]

omit h

/-- After the mark that opens a literal the pass goes on inside it. -/
theorem words_cons_quote (ts : List Text) :
    words d (q.symbol :: ts) = q.symbol :: ((Scan.inside q []).passed d ts ++
      ((Scan.inside q []).after d ts).pending).reduceOption := by
  have hsym : d.quotes.spelled? q.symbol = some q := Allowed.spelled?_symbol hq
  have hblank : Text.isBlank q.symbol = false := by cases q <;> decide
  simp [words, tokens, Scan.passed, Scan.emit, hblank, Scan.next, hsym]

omit hq

/-- Where the words tell of a text and the mark after it, the literal is closed. -/
theorem closes_of_words {text value : Text} {ts ws : List Text}
    (h : ((Scan.inside q text).passed d ts ++
      ((Scan.inside q text).after d ts).pending).reduceOption = value :: q.symbol :: ws) :
    ∃ content closing rest, ts = content ++ closing :: rest ∧
      (∀ t ∈ content, d.quotes.spelled? t ≠ some q) ∧ d.quotes.spelled? closing = some q ∧
      value = text ++ content.flatten ∧ ws = words d rest := by
  induction ts generalizing text with
  | nil => simp [Scan.passed, Scan.pending] at h
  | cons t ts ih =>
    by_cases ht : d.quotes.spelled? t = some q
    · simp only [Scan.passed, Scan.emit, Scan.after_cons, Scan.next, ht, if_true,
        List.cons_append, List.nil_append, List.reduceOption_cons_of_some, List.cons.injEq] at h
      obtain ⟨hvalue, -, hws⟩ := h
      refine ⟨[], t, ts, rfl, by simp, ht, by simpa using hvalue.symm, ?_⟩
      rw [← hws]
      rfl
    · simp only [Scan.passed, Scan.emit, Scan.after_cons, Scan.next, ht, if_false,
        List.nil_append] at h
      obtain ⟨content, closing, rest, rfl, hcontent, hclosing, hvalue, hws⟩ := ih h
      refine ⟨t :: content, closing, rest, rfl, ?_, hclosing, by simpa using hvalue, hws⟩
      intro u hu
      rcases List.mem_cons.1 hu with rfl | hu
      · exact ht
      · exact hcontent u hu

end Literals

end FlatExpr
