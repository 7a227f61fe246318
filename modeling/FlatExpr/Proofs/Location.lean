import FlatExpr.Proofs.Failures
import FlatExpr.Proofs.Positions
import FlatExpr.Proofs.Spans
import FlatExpr.Source.Report

/-!
# Where a failure is reported

An error other than the one about nesting names a place and a text. The place is the start of a
lexeme of the source or its end, and the source goes on from there with the text
(`Grammar.located_of_fails`), although many errors keep a symbol instead of the text that was read.

A place between two characters lies in one of the lines of the source, again between two characters
(`Snippet.isSome_render?`), so that every error can be shown with the line it is about.
-/

namespace FlatExpr

/-! ## Lines -/

namespace Snippet

open Text

@[simp] theorem Line.holds_iff (offset : Nat) (l : Line) :
    l.holds offset = true ↔ l.start ≤ offset ∧ offset ≤ l.start + byteLength l.text := by
  rw [holds, stop, Bool.and_eq_true, decide_eq_true_iff, decide_eq_true_iff]

theorem pieces_ne_nil (input : Text) : pieces input ≠ [] := by
  unfold pieces
  repeat' split
  all_goals exact List.cons_ne_nil _ _

/-- A character that ends no line is the first one of the line that follows it. -/
theorem pieces_cons {c : Char} (h : c ≠ '\n') (input : Text) :
    ∃ line rest, pieces input = line :: rest ∧ pieces (c :: input) = (c :: line) :: rest := by
  obtain ⟨line, rest, hpieces⟩ := List.exists_cons_of_ne_nil (pieces_ne_nil input)
  exact ⟨line, rest, hpieces, by rw [pieces, if_neg h, hpieces]⟩

theorem le_start_of_mem_place {start : Nat} {ts : List Text} {l : Line} (h : l ∈ place start ts) :
    start ≤ l.start := by
  induction ts generalizing start with
  | nil => cases h
  | cons t ts ih =>
    rcases List.mem_cons.1 h with rfl | h
    · exact Nat.le_refl _
    · have hle := ih h
      omega

/-- Every place in a source lies in one of its lines. -/
theorem exists_line (start : Nat) (before after : Text) :
    ∃ l ∈ place start (pieces (before ++ after)), l.holds (start + byteLength before) = true := by
  induction before generalizing start with
  | nil =>
    obtain ⟨line, rest, hpieces⟩ := List.exists_cons_of_ne_nil (pieces_ne_nil after)
    refine ⟨⟨start, line⟩, ?_, by simp⟩
    rw [List.nil_append, hpieces]
    exact List.mem_cons_self
  | cons c before ih =>
    obtain ⟨l, hl, hholds⟩ := ih (start + c.utf8Size)
    rw [Nat.add_assoc, ← byteLength_cons] at hholds
    rw [List.cons_append]
    by_cases hc : c = '\n'
    · refine ⟨l, ?_, hholds⟩
      subst hc
      exact List.mem_cons_of_mem _ hl
    · obtain ⟨line, rest, hpieces, hcons⟩ := pieces_cons hc (before ++ after)
      rw [hpieces] at hl
      rw [hcons]
      rcases List.mem_cons.1 hl with rfl | hl
      · -- the line that holds the place has the character as its first one
        refine ⟨⟨start, c :: line⟩, List.mem_cons_self, ?_⟩
        simp only [Line.holds_iff, byteLength_cons] at hholds ⊢
        omega
      · refine ⟨l, List.mem_cons_of_mem _ ?_, hholds⟩
        rw [byteLength_cons, ← Nat.add_assoc]
        exact hl

/-- A cut after one more character. -/
theorem isSome_splitAt?_cons (c : Char) {t : Text} {n : Nat} (h : (splitAt? t n).isSome = true) :
    (splitAt? (c :: t) (c.utf8Size + n)).isSome = true := by
  obtain ⟨⟨before, after⟩, hcut⟩ := Option.isSome_iff_exists.1 h
  obtain ⟨rfl, rfl⟩ := (splitAt?_eq_some_iff _ _ _ _).1 hcut
  refine Option.isSome_iff_exists.2 ⟨(c :: before, after), ?_⟩
  exact (splitAt?_eq_some_iff _ _ _ _).2 ⟨rfl, rfl⟩

/-- A place between two characters of a source is one between two characters of the line that it
lies in. -/
theorem isSome_splitAt?_of_holds (start : Nat) (before after : Text) :
    ∀ l ∈ place start (pieces (before ++ after)), l.holds (start + byteLength before) = true →
      (splitAt? l.text (start + byteLength before - l.start)).isSome = true := by
  induction before generalizing start with
  | nil =>
    intro l hl hholds
    -- only the first line starts so early
    have hstart : l.start = start := by
      have hle := le_start_of_mem_place hl
      have hholds := ((Line.holds_iff _ _).1 hholds).1
      rw [byteLength_nil, Nat.add_zero] at hholds
      omega
    rw [hstart, byteLength_nil, Nat.add_zero, Nat.sub_self, splitAt?]
    rfl
  | cons c before ih =>
    have hsize := c.utf8Size_pos
    have hoffset : start + byteLength (c :: before) = start + c.utf8Size + byteLength before := by
      rw [byteLength_cons, Nat.add_assoc]
    rw [hoffset, List.cons_append]
    intro l hl hholds
    by_cases hc : c = '\n'
    · subst hc
      rcases List.mem_cons.1 hl with rfl | hl
      · -- the line ends before the line feed
        simp only [Line.holds_iff, byteLength_nil] at hholds
        omega
      · exact ih _ l hl hholds
    obtain ⟨line, rest, hpieces, hcons⟩ := pieces_cons hc (before ++ after)
    have htail := ih (start + c.utf8Size)
    rw [hpieces] at htail
    rw [hcons] at hl
    rcases List.mem_cons.1 hl with rfl | hl
    · -- the line starts with the character, and the place lies further on in it
      have hline := htail ⟨start + c.utf8Size, line⟩ List.mem_cons_self (by
        simp only [Line.holds_iff, byteLength_cons] at hholds ⊢
        omega)
      have hsub : start + c.utf8Size + byteLength before - start =
          c.utf8Size + (start + c.utf8Size + byteLength before - (start + c.utf8Size)) := by
        omega
      rw [hsub]
      exact isSome_splitAt?_cons c hline
    · refine htail l (List.mem_cons_of_mem _ ?_) hholds
      rw [byteLength_cons, ← Nat.add_assoc] at hl
      exact hl

/-- A snippet can be made for every place between two characters. -/
theorem isSome_render? {input : Text} {offset : Nat} {cut : Text × Text}
    (h : splitAt? input offset = some cut) (context : Nat) :
    (render? input offset context).isSome = true := by
  obtain ⟨before, after⟩ := cut
  obtain ⟨rfl, rfl⟩ := (splitAt?_eq_some_iff _ _ _ _).1 h
  have hmin : min (byteLength before) (byteLength (before ++ after)) = byteLength before := by
    rw [byteLength_append]
    omega
  have hexists := exists_line 0 before after
  have hcuts := isSome_splitAt?_of_holds 0 before after
  rw [Nat.zero_add] at hexists hcuts
  -- the first line that holds the place
  have hindex := List.findIdx_lt_length_of_exists hexists
  have hcut := hcuts _ (List.getElem_mem hindex) (List.findIdx_getElem (w := hindex))
  obtain ⟨⟨left, right⟩, hcut⟩ := Option.isSome_iff_exists.1 hcut
  simp only [render?, lines, hmin, List.getElem?_eq_getElem hindex, hcut, Option.bind_eq_bind,
    Option.bind_some]
  rfl

end Snippet

/-! ## Lexemes -/

namespace Lexeme

/-- Beyond the last lexeme stands the terminal at the end of the source. -/
theorem terminal_ofSource (source : Text) :
    (Cursor.ofSource source).terminal = .endOf source := by
  rcases List.eq_nil_or_concat (all source) with hnil | ⟨before, l, hall⟩
  · have hsource : source = [] := by
      have hflatten := List.flatten_splitBy together source
      rw [← texts, ← map_text_all, hnil] at hflatten
      exact hflatten.symm
    subst hsource
    rfl
  · rw [List.concat_eq_append] at hall
    obtain ⟨⟨passed, hcut⟩, htexts⟩ := all_place hall
    obtain ⟨hsource, hstart⟩ := (Text.splitAt?_eq_some_iff _ _ _ _).1 hcut
    -- nothing follows the last lexeme
    have hrest : l.rest = [] := by
      have hflatten := List.flatten_splitBy together l.remainder
      rw [← texts, htexts] at hflatten
      simpa [remainder] using hflatten
    have hlength : Text.byteLength source = l.start + Text.byteLength l.text := by
      rw [hsource, Text.byteLength_append, hstart, remainder, hrest, List.append_nil]
    have hterminal : (Cursor.ofSource source).terminal = l.terminalAfter := by
      simp only [Cursor.ofSource, Cursor.ofLexemes, hall, List.getLast?_append,
        List.getLast?_singleton, Option.some_or]
    have hof : l.source = (source : Source) :=
      source_of_mem_all (by rw [hall]; exact List.mem_append_right _ (.head _))
    rw [hterminal]
    exact ext_span hof hlength.symm hlength.symm

/-- Where a lexeme that can be seen stands, the source goes on with it, and it is empty at the end
of the source only. -/
theorem SeenIn.place {source : Text} {l : Lexeme} (h : l.SeenIn source) :
    (∃ passed, Text.splitAt? source l.start = some (passed, l.remainder)) ∧
      (l ∈ all source ∧ l.text ≠ [] ∨ l.start = Text.byteLength source) := by
  cases h with
  | lexeme hl =>
    obtain ⟨before, after, hall⟩ := List.append_of_mem hl
    refine ⟨(all_place hall).1, .inl ⟨hl, ?_⟩⟩
    exact (Cursor.tidy_ofSource source).lexemes.nonempty l.text (List.mem_map_of_mem hl)
  | terminal =>
    rw [terminal_ofSource]
    refine ⟨⟨source, (Text.splitAt?_eq_some_iff _ _ _ _).2 ⟨?_, rfl⟩⟩, .inr rfl⟩
    exact (List.append_nil source).symm

end Lexeme

/-! ## Errors -/

namespace ParseError

/-- The error is about a byte offset of the source, and what it says of that place is true. -/
structure LocatedAt (source : Text) (offset : Nat) (e : ParseError) : Prop where
  /-- The error names the offset. -/
  offset_eq : e.offset = some offset
  /-- The offset is not beyond the end. -/
  le_end : offset ≤ Text.byteLength source
  /-- A lexeme starts there, unless the source ends. -/
  boundary : (∃ l ∈ Lexeme.all source, l.start = offset) ∨ offset = Text.byteLength source
  /-- It lies between two characters, and the source goes on with the lexeme of the error. -/
  lexeme_follows : ∃ passed tail, Text.splitAt? source offset = some (passed, tail) ∧
    e.lexeme <+: tail
  /-- The lexeme of the error is empty at the end of the source only. -/
  nonempty : e.lexeme = [] → offset = Text.byteLength source
  /-- Source that is left over is all of it from there on. -/
  leftover : ∀ remainder o, e = .unresolved remainder o →
    ∃ passed, Text.splitAt? source offset = some (passed, remainder)

variable {source : Text} {offset : Nat} {e : ParseError} {l : Lexeme}

/-- An error about a lexeme tells the truth if it repeats the lexeme, and perhaps what follows. -/
theorem locatedAt_of_seen (seen : l.SeenIn source) (hoffset : e.offset = some l.start)
    (htext : l.text <+: e.lexeme) (htail : e.lexeme <+: l.remainder)
    (hleftover : ∀ remainder o, e = .unresolved remainder o → remainder = l.remainder) :
    e.LocatedAt source l.start := by
  obtain ⟨⟨passed, hcut⟩, hplace⟩ := seen.place
  obtain ⟨hsource, hpassed⟩ := (Text.splitAt?_eq_some_iff _ _ _ _).1 hcut
  refine ⟨hoffset, ?_, ?_, ⟨passed, l.remainder, hcut, htail⟩, ?_, ?_⟩
  · rw [hsource, Text.byteLength_append, hpassed]
    exact Nat.le_add_right _ _
  · exact hplace.imp_left fun h => ⟨l, h.1, rfl⟩
  · intro hnil
    rw [hnil, List.prefix_nil] at htext
    exact hplace.resolve_left fun h => h.2 htext
  · intro remainder o heq
    exact ⟨passed, hleftover remainder o heq ▸ hcut⟩

/-- An error that repeats its lexeme tells the truth. -/
theorem locatedAt_of_text (seen : l.SeenIn source) (hoffset : e.offset = some l.start)
    (htext : l.text = e.lexeme) (hkind : e.kind ≠ .trailingInput) :
    e.LocatedAt source l.start := by
  refine locatedAt_of_seen seen hoffset (htext ▸ List.prefix_refl _) ?_ ?_
  · rw [← htext]
    exact List.prefix_append _ _
  · rintro remainder o rfl
    exact absurd rfl hkind

/-- An error that tells the truth about its place can be shown with the line of that place. -/
theorem LocatedAt.isSome_report? (h : e.LocatedAt source offset) :
    (e.report? source).isSome = true := by
  obtain ⟨passed, tail, hcut, -⟩ := h.lexeme_follows
  have hoffset : (SourcePosition.ofOffset source offset).offset = offset := by
    rw [(SourcePosition.counts_ofOffset source offset).offset_eq]
    exact Nat.min_eq_left h.le_end
  obtain ⟨snippet, hsnippet⟩ := Option.isSome_iff_exists.1 (Snippet.isSome_render? hcut 0)
  simp only [report?, position, h.offset_eq, Option.map_some, hoffset, hsnippet,
    Option.bind_eq_bind, Option.bind_some]
  rfl

end ParseError

namespace Grammar

variable {g : Grammar} {source : Text} {e : ParseError}

/-- Every reason for a failure is one at a place of the source, or that the nesting is too deep. -/
theorem Failure.located (h : Failure g source e) :
    (∃ depth, e = .tooDeep depth g.maxDepth) ∨ ∃ offset, e.LocatedAt source offset := by
  cases h with
  | tooDeep depth => exact .inl ⟨depth, rfl⟩
  | disabled seen => exact .inr ⟨_, ParseError.locatedAt_of_text seen rfl rfl nofun⟩
  | identifier seen => exact .inr ⟨_, ParseError.locatedAt_of_text seen rfl rfl nofun⟩
  | numeric seen => exact .inr ⟨_, ParseError.locatedAt_of_text seen rfl rfl nofun⟩
  | unexpected _ seen => exact .inr ⟨_, ParseError.locatedAt_of_text seen rfl rfl nofun⟩
  | closing seen symbol => exact .inr ⟨_, ParseError.locatedAt_of_text seen rfl symbol nofun⟩
  | mismatch _ seen symbol => exact .inr ⟨_, ParseError.locatedAt_of_text seen rfl symbol nofun⟩
  | unterminated seen symbol => exact .inr ⟨_, ParseError.locatedAt_of_text seen rfl symbol nofun⟩
  | mixed _ seen symbol => exact .inr ⟨_, ParseError.locatedAt_of_text seen rfl symbol nofun⟩
  | unresolved seen =>
    refine .inr ⟨_, ParseError.locatedAt_of_seen seen rfl (List.prefix_append _ _)
      (List.prefix_refl _) ?_⟩
    intro remainder o heq
    exact (ParseError.unresolved.inj heq).1.symm

/-- Whatever entry point fails, the error is about the nesting or tells the truth about a place of
the source, and it can be shown with the source. -/
theorem located_of_fails (h : g.Fails source e) :
    ((∃ depth, e = .tooDeep depth g.maxDepth) ∨ ∃ offset, e.LocatedAt source offset) ∧
      (e.report? source).isSome = true := by
  have hlocated := (failure_of_fails h).located
  refine ⟨hlocated, ?_⟩
  rcases hlocated with ⟨depth, rfl⟩ | ⟨offset, hoffset⟩
  · rfl
  · exact hoffset.isSome_report?

/-- A bracket that is closed by another one, after a character of two bytes. -/
theorem located_of_fails_mismatch :
    (({} : Grammar).Fails "'é' (x]".toList (.bracketMismatch .parenthesis .square 7)) ∧
      ((∃ depth, ParseError.bracketMismatch .parenthesis .square 7 =
          .tooDeep depth ({} : Grammar).maxDepth) ∨
        ∃ offset, (ParseError.bracketMismatch .parenthesis .square 7).LocatedAt
          "'é' (x]".toList offset) ∧
      ((ParseError.bracketMismatch .parenthesis .square 7).report?
        "'é' (x]".toList).isSome = true :=
  have h : ({} : Grammar).Fails "'é' (x]".toList (.bracketMismatch .parenthesis .square 7) :=
    .inl (by decide +kernel)
  ⟨h, located_of_fails h⟩

end Grammar

end FlatExpr
