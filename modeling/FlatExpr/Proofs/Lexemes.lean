import Mathlib.Data.List.SplitBy
import FlatExpr.Lexeme
import FlatExpr.Vocabulary.Delimiter

/-!
# The lexemes of a source

What the boundary rule implies for the texts of the lexemes of a source: none is empty, no two blank
ones are neighbours, and a quotation mark is always a lexeme of its own (`Tidy`). The rules of the
grammar rely on nothing else about a source. Conversely, a text falls apart into the lexemes of its
parts wherever the boundary rule cuts between them (`Lexeme.texts_append`), and a run of word
characters is one lexeme (`Lexeme.texts_of_word`).
-/

namespace FlatExpr

/-! ## Kinds of neighbouring characters -/

namespace CharKind

/-- Whether characters of the kind form words. -/
def isWord : CharKind → Bool
  | .digit | .letter | .id => true
  | _ => false

/-- The white space of ASCII is what has the property `White_Space` there. -/
theorem contains_blankSymbols {c : Char} (h : c.toNat < 128) :
    blankSymbols.contains c = Text.isWhite c := by
  have htable : ∀ n < 128, blankSymbols.contains (Char.ofNat n) = Text.isWhite (Char.ofNat n) := by
    decide +kernel
  have hc := htable c.toNat h
  rwa [Char.ofNat_toNat] at hc

/-- White space is the kind of the characters with the property `White_Space`. -/
theorem of_eq_whitespace_iff (c : Char) : of c = .whitespace ↔ Text.isWhite c = true := by
  unfold of
  split_ifs with hascii
  · rw [← contains_blankSymbols hascii]
    unfold ofAscii
    split_ifs <;> simp_all
  all_goals simp_all

/-- The boundary rule puts two kinds into one lexeme only in words and in runs of blanks or of
punctuation. -/
theorem startsAfter_eq_false_iff (this before : CharKind) :
    startsAfter this before = false ↔
      (before.isWord = true ∧ this.isWord = true) ∨
        (before = this ∧ (this = .whitespace ∨ this = .punctuation)) := by
  cases this <;> cases before <;> decide

end CharKind

namespace Lexeme

/-- Two neighbours are in one lexeme exactly when both belong to a word, or both are blanks, or both
are punctuation. -/
theorem together_iff (x y : Char) :
    together x y = true ↔
      ((CharKind.of x).isWord = true ∧ (CharKind.of y).isWord = true) ∨
        (CharKind.of x = CharKind.of y ∧
          (CharKind.of y = .whitespace ∨ CharKind.of y = .punctuation)) := by
  rw [← CharKind.startsAfter_eq_false_iff]
  simp [together]

/-- Two white space characters are in one lexeme. -/
theorem together_of_isWhite {x y : Char} (hx : Text.isWhite x = true)
    (hy : Text.isWhite y = true) : together x y = true := by
  rw [← CharKind.of_eq_whitespace_iff] at hx hy
  rw [together_iff, hx, hy]
  exact .inr ⟨rfl, .inl rfl⟩

/-- The boundary rule cuts between characters of different kinds, unless both belong to a word. -/
theorem together_eq_false_of_kind_ne {x y : Char} (hne : CharKind.of x ≠ CharKind.of y)
    (hword : (CharKind.of x).isWord = false ∨ (CharKind.of y).isWord = false) :
    together x y = false := by
  rw [← Bool.not_eq_true, together_iff]
  rintro (⟨hx, hy⟩ | ⟨hxy, -⟩)
  · rcases hword with h | h <;> simp_all
  · exact hne hxy

/-- The boundary rule cuts before and after a quotation mark or a bracket. -/
theorem together_eq_false_of_alone {x y : Char}
    (h : CharKind.of x = .quote ∨ CharKind.of x = .brackets ∨ CharKind.of y = .quote ∨
      CharKind.of y = .brackets) : together x y = false := by
  rw [← Bool.not_eq_true, together_iff]
  rintro (⟨hx, hy⟩ | ⟨hxy, hk⟩)
  · rcases h with h | h | h | h <;> simp_all [CharKind.isWord]
  · rw [hxy] at h
    rcases h with h | h | h | h <;> simp [h] at hk

end Lexeme

/-! ## Blank texts and words -/

/-- Whether a text is not empty and holds white space only. -/
def Text.isBlank (t : Text) : Bool := !t.isEmpty && t.all Text.isWhite

/-- A lexeme is white space when its text is blank. -/
theorem Lexeme.isWhitespace_eq (l : Lexeme) : l.isWhitespace = Text.isBlank l.text := rfl

/-- A text that starts with a character other than white space is not blank. -/
theorem Text.isBlank_cons_of_not_white {c : Char} {t : Text} (h : Text.isWhite c = false) :
    Text.isBlank (c :: t) = false := by
  simp [isBlank, h]

/-- The text is not empty and consists of word characters. -/
abbrev Text.IsWord (t : Text) : Prop := t ≠ [] ∧ ∀ c ∈ t, (CharKind.of c).isWord = true

/-! ## Tidy lists of texts -/

/-- What the texts of consecutive lexemes of a source have in common. -/
structure Tidy (ts : List Text) : Prop where
  /-- No lexeme is empty. -/
  nonempty : ∀ t ∈ ts, t ≠ []
  /-- Blanks are never cut, so no two blank lexemes are neighbours. -/
  gaps : ts.IsChain fun t u => Text.isBlank t = false ∨ Text.isBlank u = false
  /-- A quotation mark is a lexeme of its own. -/
  quotes : ∀ t ∈ ts, ∀ q : Quote, ∀ c ∈ q.symbol, c ∈ t → t = q.symbol

namespace Tidy

variable {ts us : List Text}

theorem left (h : Tidy (ts ++ us)) : Tidy ts where
  nonempty t ht := h.nonempty t (by simp [ht])
  gaps := (List.isChain_append.1 h.gaps).1
  quotes t ht := h.quotes t (by simp [ht])

theorem right (h : Tidy (ts ++ us)) : Tidy us where
  nonempty t ht := h.nonempty t (by simp [ht])
  gaps := (List.isChain_append.1 h.gaps).2.1
  quotes t ht := h.quotes t (by simp [ht])

/-- What follows a blank lexeme is not blank. -/
theorem isBlank_second {t u : Text} (h : Tidy (t :: u :: ts)) (ht : Text.isBlank t = true) :
    Text.isBlank u = false := by
  rcases (List.isChain_cons_cons.1 h.gaps).1 with h | h
  · rw [ht] at h; cases h
  · exact h

end Tidy

namespace Lexeme

/-- The symbol of a quotation mark is one character of that kind. -/
theorem kind_of_mem_quote (q : Quote) {c : Char} (hc : c ∈ q.symbol) :
    q.symbol = [c] ∧ CharKind.of c = .quote := by
  cases q <;> · obtain rfl := List.mem_singleton.1 hc; exact ⟨rfl, by decide⟩

/-- A lexeme with a character that stands alone has no other character. -/
theorem eq_singleton_of_alone {t : Text} (h : t.IsChain fun x y => together x y = true) {c : Char}
    (hc : c ∈ t) (hkind : CharKind.of c = .quote ∨ CharKind.of c = .brackets) : t = [c] := by
  obtain ⟨a, b, rfl⟩ := List.append_of_mem hc
  rw [List.isChain_append] at h
  obtain ⟨-, hright, hjoin⟩ := h
  have hb : b = [] := by
    cases b with
    | nil => rfl
    | cons y b =>
      have htog := (List.isChain_cons_cons.1 hright).1
      rw [together_eq_false_of_alone (by tauto)] at htog
      cases htog
  have ha : a = [] := by
    rcases List.eq_nil_or_concat a with rfl | ⟨a, x, rfl⟩
    · rfl
    · have htog := hjoin x (by simp) c (by simp)
      rw [together_eq_false_of_alone (by tauto)] at htog
      cases htog
  rw [ha, hb, List.nil_append]

/-- The texts of the lexemes of a source are tidy. -/
theorem tidy_texts (source : Text) : Tidy (texts source) where
  nonempty t ht := List.ne_nil_of_mem_splitBy ht
  gaps := by
    refine (List.isChain_getLast_head_splitBy together source).imp ?_
    rintro t u ⟨ht, hu, hcut⟩
    by_contra hboth
    rw [not_or, Bool.not_eq_false, Bool.not_eq_false] at hboth
    obtain ⟨hblankt, hblanku⟩ := hboth
    simp only [Text.isBlank, Bool.and_eq_true, List.all_eq_true] at hblankt hblanku
    have htog := together_of_isWhite (hblankt.2 _ (List.getLast_mem ht))
      (hblanku.2 _ (List.head_mem hu))
    rw [hcut] at htog
    cases htog
  quotes t ht q c hc hct := by
    obtain ⟨hsymbol, hkind⟩ := kind_of_mem_quote q hc
    rw [hsymbol]
    exact eq_singleton_of_alone (List.isChain_of_mem_splitBy ht) hct (.inl hkind)

/-- The texts of consecutive spans are the texts they were cut by. -/
theorem map_text_spans {source : Source} {start : Nat} {unread : Text}
    (h : source.Reads start unread) {ts : List Text} (hts : ts.flatten = unread) :
    (spans source start unread h ts).map text = ts := by
  induction ts generalizing start unread with
  | nil => rfl
  | cons t ts ih =>
    subst hts
    have htext : (t ++ ts.flatten).take t.length = t := List.take_left
    have hrest : (t ++ ts.flatten).drop t.length = ts.flatten := List.drop_left
    rw [spans, List.map_cons]
    exact congr (congrArg List.cons htext) (ih _ hrest.symm)

/-- Together, the texts of the lexemes of a source are the source. -/
theorem flatten_texts (source : Text) : (texts source).flatten = source :=
  List.flatten_splitBy together source

/-- The texts of the lexemes of a source. -/
theorem map_text_all (source : Text) : (all source).map text = texts source :=
  map_text_spans _ (flatten_texts source)

/-! ## Cutting a text into lexemes -/

/-- The first lexeme of a text starts as the text does. -/
theorem exists_texts_cons {t : Text} {y : Char} (hy : t.head? = some y) :
    ∃ u us, texts t = u :: us ∧ u.head? = some y := by
  obtain ⟨u, us, htexts⟩ : ∃ u us, texts t = u :: us := by
    refine List.exists_cons_of_ne_nil ?_
    rw [texts, List.splitBy_ne_nil]
    rintro rfl
    cases hy
  have hne : u ≠ [] := (tidy_texts t).nonempty u (by rw [htexts]; exact List.mem_cons_self)
  have hflatten : (texts t).flatten = t := List.flatten_splitBy together t
  rw [← hflatten, htexts, List.flatten_cons, List.head?_append_of_ne_nil _ hne] at hy
  exact ⟨u, us, htexts, hy⟩

/-- The last lexeme of a text ends as the text does. -/
theorem exists_texts_concat {t : Text} {x : Char} (hx : t.getLast? = some x) :
    ∃ us u, texts t = us ++ [u] ∧ u.getLast? = some x := by
  obtain ⟨us, u, htexts⟩ : ∃ us u, texts t = us ++ [u] := by
    rcases List.eq_nil_or_concat (texts t) with hnil | ⟨us, u, htexts⟩
    · rw [texts, List.splitBy_eq_nil] at hnil
      rw [hnil] at hx
      cases hx
    · exact ⟨us, u, by rw [htexts, List.concat_eq_append]⟩
  have hne : u ≠ [] := (tidy_texts t).nonempty u (by simp [htexts])
  have hflatten : (texts t).flatten = t := List.flatten_splitBy together t
  rw [← hflatten, htexts, List.flatten_append, List.flatten_singleton,
    List.getLast?_append_of_ne_nil _ hne] at hx
  exact ⟨us, u, htexts, hx⟩

/-- Where the boundary rule cuts between two texts, their lexemes stay apart. -/
theorem texts_append {s t : Text}
    (h : ∀ x ∈ s.getLast?, ∀ y ∈ t.head?, together x y = false) :
    texts (s ++ t) = texts s ++ texts t :=
  List.splitBy_append h

/-- A blank between two texts is a lexeme of its own, unless there is more white space around it. -/
theorem texts_append_blank {s t : Text} {x y : Char} (hx : s.getLast? = some x)
    (hy : t.head? = some y) (hkindx : CharKind.of x ≠ .whitespace)
    (hkindy : CharKind.of y ≠ .whitespace) :
    texts (s ++ " ".toList ++ t) = texts s ++ (" ".toList :: texts t) := by
  have hblank : CharKind.of ' ' = .whitespace := by decide
  have hright : texts (" ".toList ++ t) = " ".toList :: texts t := by
    have hcut : ∀ x ∈ (" ".toList).getLast?, ∀ y ∈ t.head?, together x y = false := by
      intro x' hx' y' hy'
      obtain rfl : ' ' = x' := Option.some.inj hx'
      obtain rfl : y = y' := Option.some.inj (hy.symm.trans hy')
      exact together_eq_false_of_kind_ne (by rw [hblank]; exact hkindy.symm)
        (.inl (by rw [hblank]; rfl))
    rw [texts_append hcut]
    rfl
  have hcut : ∀ x ∈ s.getLast?, ∀ y ∈ (" ".toList ++ t).head?, together x y = false := by
    intro x' hx' y' hy'
    obtain rfl : x = x' := Option.some.inj (hx.symm.trans hx')
    obtain rfl : ' ' = y' := Option.some.inj hy'
    exact together_eq_false_of_kind_ne (by rw [hblank]; exact hkindx)
      (.inr (by rw [hblank]; rfl))
  rw [List.append_assoc, texts_append hcut, hright]

/-- The boundary rule cuts before and after a quotation mark, whatever stands there. -/
theorem texts_append_quote (s : Text) (q : Quote) (t : Text) :
    texts (s ++ (q.symbol ++ t)) = texts s ++ q.symbol :: texts t := by
  obtain ⟨m, hm⟩ : ∃ m, q.symbol = [m] := by cases q <;> exact ⟨_, rfl⟩
  have hkind : CharKind.of m = .quote := (kind_of_mem_quote q (by rw [hm]; simp)).2
  have hafter : texts ([m] ++ t) = [m] :: texts t := by
    refine texts_append ?_
    intro x hx y _
    obtain rfl : m = x := Option.some.inj hx
    exact together_eq_false_of_alone (.inl hkind)
  have hbefore : texts (s ++ ([m] ++ t)) = texts s ++ texts ([m] ++ t) := by
    refine texts_append ?_
    intro x _ y hy
    obtain rfl : m = y := Option.some.inj hy
    exact together_eq_false_of_alone (.inr (.inr (.inl hkind)))
  rw [hm, hbefore, hafter]

/-- The boundary rule cuts on both sides of the text of a literal. -/
theorem texts_literal (q : Quote) (value : Text) :
    texts (q.symbol ++ value ++ q.symbol) = q.symbol :: texts value ++ [q.symbol] := by
  have hopening := texts_append_quote [] q (value ++ q.symbol)
  have hclosing := texts_append_quote value q []
  rw [List.append_nil] at hclosing
  rw [List.append_assoc, ← List.nil_append (q.symbol ++ _), hopening, hclosing]
  rfl

/-- Every lexeme of white space is blank. -/
theorem isBlank_of_mem_texts {t u : Text} (h : ∀ c ∈ t, Text.isWhite c = true)
    (hu : u ∈ texts t) : Text.isBlank u = true := by
  have hne : u ≠ [] := (tidy_texts t).nonempty u hu
  have hflatten : (texts t).flatten = t := List.flatten_splitBy together t
  rw [Text.isBlank, Bool.and_eq_true, List.all_eq_true]
  refine ⟨by simp [hne], fun c hc => h c ?_⟩
  rw [← hflatten]
  exact List.mem_flatten.2 ⟨u, hu, hc⟩

/-- A text of word characters is one lexeme. -/
theorem texts_of_word {t : Text} (hne : t ≠ [])
    (h : ∀ c ∈ t, (CharKind.of c).isWord = true) : texts t = [t] := by
  apply List.splitBy_of_isChain hne
  apply List.Pairwise.isChain
  apply List.pairwise_of_forall_mem_list
  intro x hx y hy
  exact (together_iff x y).2 (.inl ⟨h x hx, h y hy⟩)

end Lexeme

end FlatExpr
