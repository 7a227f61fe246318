import FlatExpr.Proofs.Rules
import FlatExpr.Proofs.Spans

/-!
# White space around a text

White space at either end of a text adds no word, also where the text starts or ends with white
space of its own, with which it becomes one lexeme (`Says.white_append`, `Says.append_white`). A
separator between two blanks is then a lexeme of its own, whatever stands around the blanks, and a
word between the words of the two texts (`Says.append_separator`).

A place in the lexemes of a source that is not before white space is determined by the words before
it (`closed_cut_unique`).
-/

namespace FlatExpr

open Lexeme

/-! ## Cutting off white space -/

namespace Lexeme

/-- The boundary rule cuts between white space and anything else. -/
theorem together_eq_false_of_isWhite_ne {x y : Char} (h : Text.isWhite x ≠ Text.isWhite y) :
    together x y = false := by
  rw [Ne, Bool.eq_iff_iff, ← CharKind.of_eq_whitespace_iff, ← CharKind.of_eq_whitespace_iff] at h
  rw [← Bool.not_eq_true, together_iff]
  rintro (⟨hx, hy⟩ | ⟨hxy, -⟩)
  · refine h (iff_of_false ?_ ?_)
    · intro hwhite
      rw [hwhite] at hx
      cases hx
    · intro hwhite
      rw [hwhite] at hy
      cases hy
  · exact h (by rw [hxy])

/-- White space before a text that starts with something else is cut off. -/
theorem texts_white_append {w t : Text} (hw : ∀ c ∈ w, Text.isWhite c = true)
    (ht : ∀ c ∈ t.head?, Text.isWhite c = false) : texts (w ++ t) = texts w ++ texts t := by
  refine texts_append ?_
  intro x hx y hy
  apply together_eq_false_of_isWhite_ne
  rw [hw x (List.mem_of_getLast? hx), ht y hy]
  exact nofun

/-- White space after a text that ends with something else is cut off. -/
theorem texts_append_white {t w : Text} (ht : ∀ c ∈ t.getLast?, Text.isWhite c = false)
    (hw : ∀ c ∈ w, Text.isWhite c = true) : texts (t ++ w) = texts t ++ texts w := by
  refine texts_append ?_
  intro x hx y hy
  apply together_eq_false_of_isWhite_ne
  rw [ht x hx, hw y (List.mem_of_head? hy)]
  exact nofun

/-- No separator but white space is blank. -/
theorem isBlank_separator {separator : Separator} (h : separator ≠ .space) :
    Text.isBlank separator.symbol = false := by
  cases separator with
  | space => exact absurd rfl h
  | _ => decide

/-- A separator between two blanks is a lexeme of its own, whatever stands around the blanks. -/
theorem texts_append_separator {separator : Separator} (h : separator ≠ .space)
    (s t : Text) : texts (s ++ (" ".toList ++ separator.symbol ++ " ".toList ++ t)) =
      texts (s ++ " ".toList) ++ separator.symbol :: texts (" ".toList ++ t) := by
  obtain ⟨m, hm, hwhite⟩ : ∃ m, separator.symbol = [m] ∧ Text.isWhite m = false := by
    cases separator with
    | space => exact absurd rfl h
    | _ => exact ⟨_, rfl, by decide⟩
  have hblank : Text.isWhite ' ' = true := by decide
  have hafter : texts ([m] ++ (" ".toList ++ t)) = [m] :: texts (" ".toList ++ t) := by
    refine texts_append ?_
    intro x hx y hy
    obtain rfl : m = x := Option.some.inj hx
    obtain rfl : ' ' = y := Option.some.inj hy
    exact together_eq_false_of_isWhite_ne (by rw [hwhite, hblank]; exact nofun)
  have hbefore : texts (s ++ " ".toList ++ ([m] ++ (" ".toList ++ t))) =
      texts (s ++ " ".toList) ++ texts ([m] ++ (" ".toList ++ t)) := by
    refine texts_append ?_
    intro x hx y hy
    obtain rfl : m = y := Option.some.inj hy
    have hx : x = ' ' := by
      rw [List.getLast?_append] at hx
      exact (Option.some.inj hx).symm
    rw [hx]
    exact together_eq_false_of_isWhite_ne (by rw [hwhite, hblank]; exact nofun)
  rw [hm, ← hafter, ← hbefore]
  simp only [List.append_assoc]

end Lexeme

/-! ## Blank lexemes -/

section Blanks

variable {d : Dialect} {ts us : List Text}

/-- Blank lexemes neither open nor close a literal. -/
theorem Scan.after_blank_eq_outside_iff {s : Scan} (h : ∀ t ∈ ts, Text.isBlank t = true) :
    s.after d ts = .outside ↔ s = .outside := by
  induction ts generalizing s with
  | nil => rfl
  | cons t ts ih =>
    rw [List.forall_mem_cons] at h
    rw [Scan.after_cons, ih h.2]
    cases s <;> simp [Scan.next, spelled?_quote_of_isBlank h.1]

theorem closed_blank_append_iff (h : ∀ t ∈ ts, Text.isBlank t = true) :
    Closed d (ts ++ us) ↔ Closed d us := by
  unfold Closed
  rw [Scan.after_append, (Scan.after_blank_eq_outside_iff h).2 rfl]

theorem closed_append_blank_iff (h : ∀ u ∈ us, Text.isBlank u = true) :
    Closed d (ts ++ us) ↔ Closed d ts := by
  unfold Closed
  rw [Scan.after_append, Scan.after_blank_eq_outside_iff h]

/-- Where a literal is left open there is a word. -/
theorem closed_of_words_eq_nil (h : words d ts = []) : Closed d ts := by
  unfold words tokens at h
  unfold Closed
  cases hafter : Scan.outside.after d ts with
  | outside => rfl
  | inside q text =>
    rw [hafter, Scan.pending, List.reduceOption_append] at h
    cases (List.append_eq_nil_iff.1 h).2

/-- Of the ways to cut some lexemes that leave no literal open, only one has given words before it
and no blank after it. -/
theorem closed_cut_unique {ts' us' : List Text} (happend : ts ++ us = ts' ++ us')
    (h : words d ts = words d ts') (hclosed : Closed d ts) (hclosed' : Closed d ts')
    (hsettled : ∀ u ∈ us.head?, Text.isBlank u = false)
    (hsettled' : ∀ u ∈ us'.head?, Text.isBlank u = false) : ts = ts' := by
  -- between the two cuts there are no words, so that the first lexeme there would be blank
  have hbetween : ∀ {front back rest : List Text}, Closed d front →
      words d (front ++ back) = words d front →
      (∀ u ∈ (back ++ rest).head?, Text.isBlank u = false) → back = [] := by
    intro front back rest hfront hwords hhead
    rw [words_append hfront, List.append_right_eq_self] at hwords
    cases back with
    | nil => rfl
    | cons t back =>
      obtain ⟨ws, hws⟩ := words_cons_head (d := d) (hhead t rfl) back
      rw [hws] at hwords
      cases hwords
  rcases List.append_eq_append_iff.1 happend with ⟨back, rfl, rfl⟩ | ⟨back, rfl, rfl⟩
  · rw [hbetween hclosed h.symm hsettled, List.append_nil]
  · rw [hbetween hclosed' h hsettled', List.append_nil]

end Blanks

/-! ## Texts and their words -/

/-- White space at the start of a text, and a rest that does not start with any. -/
theorem Text.exists_white_append (t : Text) : ∃ w u, t = w ++ u ∧
    (∀ c ∈ w, Text.isWhite c = true) ∧ ∀ c ∈ u.head?, Text.isWhite c = false := by
  induction t with
  | nil => exact ⟨[], [], rfl, by simp, by simp⟩
  | cons c t ih =>
    cases hc : Text.isWhite c with
    | false => exact ⟨[], c :: t, rfl, by simp, by simp [hc]⟩
    | true =>
      obtain ⟨w, u, rfl, hw, hu⟩ := ih
      exact ⟨c :: w, u, rfl, List.forall_mem_cons.2 ⟨hc, hw⟩, hu⟩

/-- White space at the end of a text, and what is before it. -/
theorem Text.exists_append_white (t : Text) : ∃ u w, t = u ++ w ∧
    (∀ c ∈ u.getLast?, Text.isWhite c = false) ∧ ∀ c ∈ w, Text.isWhite c = true := by
  obtain ⟨w, u, ht, hw, hu⟩ := Text.exists_white_append t.reverse
  refine ⟨u.reverse, w.reverse, ?_, ?_, ?_⟩
  · rw [← List.reverse_append, ← ht, List.reverse_reverse]
  · rw [List.getLast?_reverse]
    exact hu
  · intro c hc
    exact hw c (List.mem_reverse.1 hc)

/-- A text that leaves no literal open, and its words. -/
structure Says (d : Dialect) (t : Text) (ws : List Text) : Prop where
  /-- No literal is left open. -/
  closed : Closed d (texts t)
  /-- The words of the text. -/
  words : words d (texts t) = ws

namespace Says

variable {d : Dialect} {s t w : Text} {ws ws' : List Text}

/-- White space before a text that starts with something else adds no word. -/
theorem white_append_iff (hw : ∀ c ∈ w, Text.isWhite c = true)
    (ht : ∀ c ∈ t.head?, Text.isWhite c = false) : Says d (w ++ t) ws ↔ Says d t ws := by
  have hblank : ∀ u ∈ texts w, Text.isBlank u = true := fun _ => isBlank_of_mem_texts hw
  constructor
  · rintro ⟨hclosed, hwords⟩
    rw [texts_white_append hw ht, closed_blank_append_iff hblank] at hclosed
    rw [texts_white_append hw ht, words_blank_append hblank] at hwords
    exact ⟨hclosed, hwords⟩
  · rintro ⟨hclosed, hwords⟩
    constructor
    · rwa [texts_white_append hw ht, closed_blank_append_iff hblank]
    · rwa [texts_white_append hw ht, words_blank_append hblank]

/-- White space after a text that ends with something else adds no word. -/
theorem append_white_iff (ht : ∀ c ∈ t.getLast?, Text.isWhite c = false)
    (hw : ∀ c ∈ w, Text.isWhite c = true) : Says d (t ++ w) ws ↔ Says d t ws := by
  have hblank : ∀ u ∈ texts w, Text.isBlank u = true := fun _ => isBlank_of_mem_texts hw
  have hnil : FlatExpr.words d (texts w) = [] := by
    have h := words_blank_append (d := d) hblank []
    rwa [List.append_nil] at h
  constructor
  · rintro ⟨hclosed, hwords⟩
    rw [texts_append_white ht hw, closed_append_blank_iff hblank] at hclosed
    rw [texts_append_white ht hw, words_append hclosed, hnil, List.append_nil] at hwords
    exact ⟨hclosed, hwords⟩
  · rintro ⟨hclosed, hwords⟩
    constructor
    · rwa [texts_append_white ht hw, closed_append_blank_iff hblank]
    · rwa [texts_append_white ht hw, words_append hclosed, hnil, List.append_nil]

/-- White space before any text adds no word. -/
theorem white_append (h : Says d t ws) (hw : ∀ c ∈ w, Text.isWhite c = true) :
    Says d (w ++ t) ws := by
  obtain ⟨v, u, rfl, hv, hu⟩ := Text.exists_white_append t
  rw [white_append_iff hv hu] at h
  rw [← List.append_assoc]
  exact (white_append_iff (List.forall_mem_append.2 ⟨hw, hv⟩) hu).2 h

/-- White space after any text adds no word. -/
theorem append_white (h : Says d t ws) (hw : ∀ c ∈ w, Text.isWhite c = true) :
    Says d (t ++ w) ws := by
  obtain ⟨u, v, rfl, hu, hv⟩ := Text.exists_append_white t
  rw [append_white_iff hu hv] at h
  rw [List.append_assoc]
  exact (append_white_iff hu (List.forall_mem_append.2 ⟨hv, hw⟩)).2 h

theorem isWhite_of_mem_space : ∀ c ∈ " ".toList, Text.isWhite c = true :=
  List.all_eq_true.1 (by decide)

/-- A separator between two texts is a word between their words. -/
theorem append_separator {separator : Separator} (hs : Says d s ws) (ht : Says d t ws')
    (hsymbolic : separator ≠ .space) :
    Says d (s ++ (" ".toList ++ separator.symbol ++ " ".toList ++ t))
      (ws ++ separator.symbol :: ws') := by
  obtain ⟨hclosed, hwords⟩ := hs.append_white isWhite_of_mem_space
  obtain ⟨hclosed', hwords'⟩ := ht.white_append isWhite_of_mem_space
  have hquote : d.quotes.spelled? separator.symbol = none := spelled?_quote_symbol d separator
  have hword := isBlank_separator hsymbolic
  constructor
  · rw [texts_append_separator hsymbolic]
    exact hclosed.append ((closed_singleton hquote).append hclosed')
  · rw [texts_append_separator hsymbolic, words_append hclosed, hwords,
      words_cons_word hword hquote, hwords']

/-- The words before a separator between two texts tell where it is: the lexeme after a cut with
these words before it starts one blank after the first text. -/
theorem start_of_cut {separator : Separator} {ls ls' : List Lexeme} (h : Says d s ws)
    (hsymbolic : separator ≠ .space)
    (hall : all (s ++ (" ".toList ++ separator.symbol ++ " ".toList ++ t)) = ls ++ ls')
    (hclosed : Closed d (ls.map text)) (hwords : FlatExpr.words d (ls.map text) = ws)
    (hsettled : ∀ u ∈ (ls'.map text).head?, Text.isBlank u = false) :
    ∃ l rest, ls' = l :: rest ∧ l.start = Text.byteLength s + 1 := by
  obtain ⟨hclosed', hwords'⟩ := h.append_white isWhite_of_mem_space
  have htexts := map_text_all (s ++ (" ".toList ++ separator.symbol ++ " ".toList ++ t))
  rw [hall, List.map_append, texts_append_separator hsymbolic] at htexts
  have hcut : ls.map text = texts (s ++ " ".toList) := by
    refine closed_cut_unique htexts (by rw [hwords, hwords']) hclosed hclosed' hsettled ?_
    intro u hu
    obtain rfl : separator.symbol = u := Option.some.inj hu
    exact isBlank_separator hsymbolic
  rw [hcut] at htexts
  obtain ⟨l, rest, rfl, -, -⟩ := List.map_eq_cons_iff.1 (List.append_cancel_left htexts)
  have hflatten : (texts (s ++ " ".toList)).flatten = s ++ " ".toList := List.flatten_splitBy _ _
  refine ⟨l, rest, rfl, ?_⟩
  rw [(all_split hall).2.1, hcut, hflatten, Text.byteLength_append]
  rfl

end Says

end FlatExpr
