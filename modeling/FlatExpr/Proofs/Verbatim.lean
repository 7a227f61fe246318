import FlatExpr.Proofs.Gaps
import FlatExpr.Proofs.Shapes

/-!
# Quoted text

What stands between two quotation marks of one kind is kept as it is, whatever it is made of. The
text is cut into lexemes like any other, but a quotation mark is a lexeme of its own in every
context, so that the literal ends at the next mark of its kind and nothing of the text is lost
(`words_literal`). Where that mark never comes, the literal is reported as unterminated at the place
where it was opened (`literal_of_open`).
-/

namespace FlatExpr

/-- A mark that a text does not hold is none of the lexemes of the text. -/
theorem spelled?_ne_of_clear {d : Dialect} {q : Quote} {value : Text}
    (hclear : ∀ c ∈ q.symbol, c ∉ value) :
    ∀ t ∈ Lexeme.texts value, d.quotes.spelled? t ≠ some q := by
  intro t ht hq
  obtain ⟨rfl, -⟩ := (Allowed.spelled?_eq_some_iff _ _ _).1 hq
  obtain ⟨c, hc⟩ := List.exists_mem_of_ne_nil _ (OneSpelling.symbol_ne_nil q)
  have hflatten : (Lexeme.texts value).flatten = value := List.flatten_splitBy Lexeme.together value
  apply hclear c hc
  rw [← hflatten]
  exact List.mem_flatten.2 ⟨_, ht, hc⟩

/-- The words of a quoted text with white space around it: the mark, the text and the mark. -/
theorem words_literal {d : Dialect} {q : Quote} {before value after : Text}
    (hq : d.quotes.allows q = true) (hbefore : ∀ c ∈ before, Text.isWhite c = true)
    (hafter : ∀ c ∈ after, Text.isWhite c = true) (hclear : ∀ c ∈ q.symbol, c ∉ value) :
    words d (Lexeme.texts (before ++ q.symbol ++ value ++ q.symbol ++ after)) =
      [q.symbol, value, q.symbol] := by
  have htexts : Lexeme.texts (before ++ q.symbol ++ value ++ q.symbol ++ after) =
      Lexeme.texts before ++ ((q.symbol :: Lexeme.texts value ++ [q.symbol]) ++
        Lexeme.texts after) := by
    simp only [List.append_assoc, Lexeme.texts_append_quote, List.cons_append, List.nil_append]
  have hcontent := spelled?_ne_of_clear (d := d) hclear
  have hblank : words d (Lexeme.texts after) = [] := by
    have h := words_blank_append (d := d) (fun t => Lexeme.isBlank_of_mem_texts hafter) []
    rwa [List.append_nil] at h
  rw [htexts, words_blank_append fun t => Lexeme.isBlank_of_mem_texts hbefore,
    words_append (closed_literal hq hcontent), hblank, words, tokens_literal hq hcontent,
    show (Lexeme.texts value).flatten = value from List.flatten_splitBy _ _]
  rfl

namespace Grammar

open Rule Cursor

variable {g : Grammar} {q : Quote}

/-! ## Literals that are left open -/

/-- Gathering gives up where no lexeme closes the literal. -/
theorem gather_eq_none {closes : Lexeme → Bool} {ls : List Lexeme}
    (h : ∀ l ∈ ls, closes l = false) (run : TextRun) (behind : List Lexeme) :
    (gather closes run behind ls).1 = none := by
  induction ls generalizing run behind with
  | nil => rfl
  | cons l ls ih =>
    rw [List.forall_mem_cons] at h
    unfold gather
    split_ifs with hterminal hcloses
    · rfl
    · rw [h.1] at hcloses
      cases hcloses
    · exact ih h.2 _ _

/-- A literal without a mark that closes it is reported at the mark that opens it. -/
theorem literal_of_open {s : ReadState} {l : Lexeme} {ls : List Lexeme}
    (hahead : s.cursor.skipSpace.ahead = l :: ls) (hl : l.text = q.symbol)
    (hq : g.dialect.quotes.allows q = true) (h : ∀ m ∈ ls, m.toQuote g.dialect ≠ some q) :
    (g.literal s).1 = .error (.unterminatedLiteral q l.start) := by
  have hopened : s.cursor.peekWord = l := peek_of_ahead hahead
  have hquote : l.toQuote g.dialect = some q := (Allowed.spelled?_eq_some_iff _ _ _).2 ⟨hl, hq⟩
  have hskip : s.cursor.skipWord.ahead = ls := by rw [skipWord, skip_of_ahead hahead]
  have hnone : (gather (fun m => m.toQuote g.dialect == some q) .empty s.cursor.skipWord.behind
      s.cursor.skipWord.ahead).1 = none :=
    gather_eq_none (by rw [hskip]; exact fun m hm => beq_eq_false_iff_ne.2 (h m hm)) _ _
  rw [literal, next_bind, hopened]
  simp only [hquote]
  rw [bind_apply, textUpTo]
  rcases hgather : gather (fun m => m.toQuote g.dialect == some q) .empty
    s.cursor.skipWord.behind s.cursor.skipWord.ahead with ⟨run, behind, ahead⟩
  rw [hgather] at hnone
  obtain rfl : run = none := hnone
  rfl

/-- A term that starts with such a literal fails as the literal does. -/
theorem termWith_of_open {operation : Rule Expr} {s : ReadState} {l : Lexeme} {ls : List Lexeme}
    (hs : s.cursor.Tidy) (hahead : s.cursor.skipSpace.ahead = l :: ls) (hl : l.text = q.symbol)
    (hq : g.dialect.quotes.allows q = true) (h : ∀ m ∈ ls, m.toQuote g.dialect ≠ some q) :
    (g.termWith operation s).1 = .error (.unterminatedLiteral q l.start) := by
  have hquote : s.cursor.skipSpace.peek.classify g.dialect = .ok (.quote q) := by
    rw [peek_of_ahead hahead]
    exact (Lexeme.classify_eq_quote_iff q).2 ⟨hl, hq⟩
  have hahead' : s.cursor.skipSpace.skipSpace.ahead = l :: ls := by
    rw [skipSpace_of_settled hs.settled_skipSpace, hahead]
  rw [termWith, move_bind, look_bind]
  simp only [hquote]
  exact literal_of_open hahead' hl hq h

/-- Past white space a source goes on with the quotation mark that follows it. -/
theorem ahead_startOf_quote {before : Text} (hbefore : ∀ c ∈ before, Text.isWhite c = true)
    (q : Quote) (value : Text) :
    ∃ l ls, (startOf (before ++ (q.symbol ++ value))).cursor.skipSpace.ahead = l :: ls ∧
      l.text = q.symbol ∧ l.start = Text.byteLength before ∧
      ls.map Lexeme.text = Lexeme.texts value := by
  -- the lexemes are those of the white space, the mark and those of the text
  have htexts := Lexeme.map_text_all (before ++ (q.symbol ++ value))
  rw [Lexeme.texts_append_quote] at htexts
  obtain ⟨blanks, rest, hall, hblanks, hrest⟩ := List.map_eq_append_iff.1 htexts
  obtain ⟨l, ls, rfl, hl, hls⟩ := List.map_eq_cons_iff.1 hrest
  have hspace : ∀ m ∈ blanks, m.isWhitespace = true := fun m hm =>
    Lexeme.isBlank_of_mem_texts hbefore (by rw [← hblanks]; exact List.mem_map_of_mem hm)
  have hmark : l.isWhitespace = false := by
    rw [Lexeme.isWhitespace_eq, hl]
    cases q <;> decide
  refine ⟨l, ls, ?_, hl, ?_, hls⟩
  · have hs : (startOf (before ++ (q.symbol ++ value))).cursor.Tidy := tidy_ofSource _
    rw [hs.ahead_skipSpace_eq]
    show (Lexeme.all _).dropWhile _ = _
    rw [hall, List.dropWhile_append_of_pos hspace, List.dropWhile_cons_of_neg (by simp [hmark])]
  · rw [(Lexeme.all_split hall).2.1, hblanks]
    exact congrArg Text.byteLength (List.flatten_splitBy Lexeme.together before)

/-- A quoted text that is left open is reported at its mark, whatever white space is before it. -/
theorem parseTerm_of_open {before value : Text} (hq : g.dialect.quotes.allows q = true)
    (hbefore : ∀ c ∈ before, Text.isWhite c = true) (hclear : ∀ c ∈ q.symbol, c ∉ value) :
    g.parseTerm (before ++ (q.symbol ++ value)) =
      .error (.unterminatedLiteral q (Text.byteLength before)) := by
  obtain ⟨l, ls, hahead, hl, hstart, hls⟩ := ahead_startOf_quote hbefore q value
  have hopen : ∀ m ∈ ls, m.toQuote g.dialect ≠ some q := fun m hm =>
    spelled?_ne_of_clear hclear m.text (by rw [← hls]; exact List.mem_map_of_mem hm)
  rw [← hstart]
  exact parseWhole_of_error (termWith_of_open (tidy_ofSource _) hahead hl hq hopen)

/-! ## Quoted texts -/

/-- Quoted text is kept verbatim. Between white space, two marks of an allowed kind and a text are
read as the literal of that text exactly when the text does not hold the mark; and without the
second mark such a text is reported as unterminated, at the offset of the first. -/
theorem parseTerm_verbatim (g : Grammar) (q : Quote) (hq : g.dialect.quotes.allows q = true)
    (before value after : Text) (hbefore : ∀ c ∈ before, Text.isWhite c = true)
    (hafter : ∀ c ∈ after, Text.isWhite c = true) :
    (g.parseTerm (before ++ q.symbol ++ value ++ q.symbol ++ after) = .ok (.literal q value) ↔
      ∀ c ∈ q.symbol, c ∉ value) ∧
    ((∀ c ∈ q.symbol, c ∉ value) → g.parseTerm (before ++ q.symbol ++ value) =
      .error (.unterminatedLiteral q (Text.byteLength before))) := by
  refine ⟨⟨?_, ?_⟩, ?_⟩
  · intro hparse
    rcases shape_of_parseTerm hparse with hterm | ⟨-, hstarts⟩
    · cases hterm with
      | literal _ hclear => exact hclear
    · cases hstarts
  · intro hclear
    refine (parseWhole_iff_phrase (reads_term g 0)).2 ?_
    rw [words_literal hq hbefore hafter hclear]
    exact .literal (.mk hq hclear)
  · intro hclear
    rw [List.append_assoc]
    exact parseTerm_of_open hq hbefore hclear

/-- With double quotation marks only, no nesting and white space beyond ASCII: a text with the other
marks, an open bracket, blanks at both ends, a line break and characters of several bytes is kept;
one with a mark of its own is not; and the first is reported at byte 4 when it is left open. -/
theorem parseTerm_verbatim_unicode :
    (⟨{ quotes := .only (.ofList [.double]) }, 0⟩ : Grammar).parseTerm
        ("\u2003\n".toList ++ Quote.double.symbol ++ " it's `(é\n+ 漢 ".toList ++
          Quote.double.symbol ++ " \t".toList) =
      .ok (.literal .double " it's `(é\n+ 漢 ".toList) ∧
    (⟨{ quotes := .only (.ofList [.double]) }, 0⟩ : Grammar).parseTerm
        (" ".toList ++ Quote.double.symbol ++ "a\"b".toList ++ Quote.double.symbol ++ []) ≠
      .ok (.literal .double "a\"b".toList) ∧
    (⟨{ quotes := .only (.ofList [.double]) }, 0⟩ : Grammar).parseTerm
        ("\u2003\n".toList ++ Quote.double.symbol ++ " it's `(é\n+ 漢 ".toList) =
      .error (.unterminatedLiteral .double 4) := by
  have hbefore : ∀ c ∈ "\u2003\n".toList, Text.isWhite c = true :=
    List.all_eq_true.1 (by decide)
  have hspace : ∀ c ∈ " ".toList, Text.isWhite c = true := List.all_eq_true.1 (by decide)
  have hafter : ∀ c ∈ " \t".toList, Text.isWhite c = true := List.all_eq_true.1 (by decide)
  have hclear : ∀ c ∈ Quote.double.symbol, c ∉ " it's `(é\n+ 漢 ".toList :=
    List.forall_mem_singleton.2 (by decide)
  refine ⟨?_, ?_, ?_⟩
  · exact (parseTerm_verbatim _ .double rfl _ _ _ hbefore hafter).1.2 hclear
  · intro h
    have hmark := (parseTerm_verbatim _ .double rfl _ _ [] hspace nofun).1.1 h
    exact List.forall_mem_singleton.1 hmark (by decide)
  · exact (parseTerm_verbatim _ .double rfl _ _ [] hbefore nofun).2 hclear

end Grammar

end FlatExpr
