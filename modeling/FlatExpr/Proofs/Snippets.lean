import FlatExpr.Proofs.Location
import FlatExpr.Proofs.Positions

/-!
# Snippets agree with positions

A snippet finds its line in a table of line spans, while a position counts line feeds. Both come to
the same: between two characters, the lines above the place are as many as the line feeds before it,
and the line of the place is what stands before it since the last line feed, followed by what stands
after it up to the next one (`splitOn_append`). So the snippet shows the lines around that of the
position, and its caret has as many blanks before it as the column says (`render?_append`).

The rows of a snippet and the caret row have margins of their own. The margin of a row grows with
the number of the line from five digits on and that of the caret row does not, so that the caret
stands under the place exactly in the first 9999 lines (`marks_append`).
-/

namespace FlatExpr.Snippet

open Text

/-! ## The lines of a source -/

/-- The lines are what stands between the line feeds. -/
theorem pieces_eq_splitOn (input : Text) : pieces input = input.splitOn '\n' := by
  induction input with
  | nil => rfl
  | cons c cs ih =>
    rw [List.splitOn_cons_eq_if_modifyHead, ← ih]
    by_cases hc : c = '\n'
    · rw [pieces, if_pos hc, if_pos (by simpa using hc)]
    · obtain ⟨line, rest, hpieces, hcons⟩ := pieces_cons hc cs
      rw [hcons, hpieces, if_neg (by simpa using hc), List.modifyHead_cons]

theorem newline_not_mem_of_mem_splitOn {input line : Text} (h : line ∈ input.splitOn '\n') :
    '\n' ∉ line := by
  rw [← pieces_eq_splitOn] at h
  induction input generalizing line with
  | nil =>
    rw [List.mem_singleton.1 h]
    exact List.not_mem_nil
  | cons c cs ih =>
    by_cases hc : c = '\n'
    · rw [pieces, if_pos hc] at h
      rcases List.mem_cons.1 h with rfl | h
      · exact List.not_mem_nil
      · exact ih h
    · obtain ⟨first, rest, hpieces, hcons⟩ := pieces_cons hc cs
      rw [hpieces] at ih
      rw [hcons] at h
      rcases List.mem_cons.1 h with rfl | h
      · rw [List.mem_cons, not_or]
        exact ⟨Ne.symm hc, ih List.mem_cons_self⟩
      · exact ih (List.mem_cons_of_mem _ h)

/-- The first line goes up to the first line feed. -/
theorem splitOn_eq_firstLine_cons (input : Text) :
    ∃ below, input.splitOn '\n' = firstLine input :: below := by
  rw [← pieces_eq_splitOn]
  induction input with
  | nil => exact ⟨[], rfl⟩
  | cons c cs ih =>
    obtain ⟨below, hbelow⟩ := ih
    by_cases hc : c = '\n'
    · refine ⟨pieces cs, ?_⟩
      rw [pieces, if_pos hc, firstLine, List.takeWhile_cons_of_neg (by simpa using hc)]
    · obtain ⟨line, rest, hpieces, hcons⟩ := pieces_cons hc cs
      rw [hpieces, List.cons.injEq] at hbelow
      refine ⟨rest, ?_⟩
      rw [hcons, firstLine, List.takeWhile_cons_of_pos (by simpa using hc), hbelow.1]
      rfl

/-- There is one line more than there are line feeds. -/
theorem length_splitOn (input : Text) : (input.splitOn '\n').length = input.count '\n' + 1 := by
  induction input with
  | nil => rfl
  | cons c cs ih =>
    rw [List.splitOn_cons_eq_if_modifyHead, List.count_cons]
    split_ifs
    · rw [List.length_cons, ih]
    · rw [List.length_modifyHead, ih, Nat.add_zero]

/-- The number of bytes that some lines take, with a line feed after each. -/
def width : List Text → Nat
  | [] => 0
  | t :: ts => byteLength t + 1 + width ts

/-- The lines take all bytes of the source, and one more for the line feed that the last one does
not have. -/
theorem width_splitOn (input : Text) : width (input.splitOn '\n') = byteLength input + 1 := by
  rw [← pieces_eq_splitOn]
  induction input with
  | nil => rfl
  | cons c cs ih =>
    by_cases hc : c = '\n'
    · have hsize : c.utf8Size = 1 := by rw [hc]; rfl
      rw [pieces, if_pos hc, width, ih, byteLength_cons, byteLength_nil, hsize]
      omega
    · obtain ⟨line, rest, hpieces, hcons⟩ := pieces_cons hc cs
      rw [hpieces, width] at ih
      rw [hcons, width, byteLength_cons, byteLength_cons]
      omega

/-- The lines of a source around a place in it: those above it end in the line feeds before it, and
its own line is what is before and after it between two line feeds. -/
theorem splitOn_append (before after : Text) :
    ∃ above below, (before ++ after).splitOn '\n' =
        above ++ (lastLine before ++ firstLine after) :: below ∧
      above.length = before.count '\n' ∧
      width above + byteLength (lastLine before) = byteLength before := by
  -- text without a line feed is the start of the first line
  have hfirst (t : Text) (ht : '\n' ∉ t) : firstLine (t ++ after) = t ++ firstLine after :=
    List.takeWhile_append_of_pos fun c hc => by simpa using ne_of_mem_of_not_mem hc ht
  have hline := newline_not_mem_lastLine before
  rcases lastLine_cases before with hall | ⟨above, habove⟩
  · rw [hall] at hline ⊢
    obtain ⟨below, hbelow⟩ := splitOn_eq_firstLine_cons (before ++ after)
    refine ⟨[], below, ?_, ?_, ?_⟩
    · rw [hbelow, hfirst _ hline, List.nil_append]
    · exact (List.count_eq_zero.2 hline).symm
    · exact Nat.zero_add _
  · -- the source is cut at the last line feed before the place
    generalize lastLine before = line at hline habove ⊢
    subst habove
    obtain ⟨below, hbelow⟩ := splitOn_eq_firstLine_cons (line ++ after)
    refine ⟨above.splitOn '\n', below, ?_, ?_, ?_⟩
    · rw [List.append_assoc, List.cons_append, List.splitOn_append_cons_self, hbelow,
        hfirst _ hline]
    · rw [length_splitOn, List.count_append, List.count_cons_self, List.count_eq_zero.2 hline]
    · have hsize : '\n'.utf8Size = 1 := rfl
      rw [width_splitOn, byteLength_append, byteLength_cons, hsize, Nat.add_assoc]

/-! ## The table of lines -/

theorem place_append (start : Nat) (ts us : List Text) :
    place start (ts ++ us) = place start ts ++ place (start + width ts) us := by
  induction ts generalizing start with
  | nil => rfl
  | cons t ts ih =>
    have hstart : start + width (t :: ts) = start + byteLength t + 1 + width ts := by
      rw [width]
      omega
    rw [List.cons_append, place, place, ih, hstart, List.cons_append]

@[simp] theorem map_text_place (start : Nat) (ts : List Text) :
    (place start ts).map Line.text = ts := by
  induction ts generalizing start with
  | nil => rfl
  | cons t ts ih => rw [place, List.map_cons, ih]

@[simp] theorem length_place (start : Nat) (ts : List Text) :
    (place start ts).length = ts.length := by
  rw [← List.length_map, map_text_place]

theorem stop_lt_of_mem_place {start : Nat} {ts : List Text} {l : Line} (h : l ∈ place start ts) :
    l.start + byteLength l.text < start + width ts := by
  induction ts generalizing start with
  | nil => cases h
  | cons t ts ih =>
    rw [width]
    rcases List.mem_cons.1 h with rfl | h
    · dsimp only
      omega
    · have hlt := ih h
      omega

/-- Of consecutive lines, a place in one of them is held by no line above it. -/
theorem findIdx_place {above : List Text} {offset : Nat} {l : Line} (below : List Line)
    (habove : width above ≤ offset) (h : l.holds offset = true) :
    (place 0 above ++ l :: below).findIdx (Line.holds offset) = above.length := by
  -- a line holds the place at its end too, and for the lines above that comes before the offset
  have hnone : ∀ m ∈ place 0 above, m.holds offset = false := by
    intro m hm
    have hstop := stop_lt_of_mem_place hm
    rw [Bool.eq_false_iff, ne_eq, Line.holds_iff]
    omega
  rw [List.findIdx_append, List.findIdx_eq_length_of_false hnone, if_neg (Nat.lt_irrefl _),
    List.findIdx_cons, h, length_place]
  exact Nat.zero_add _

/-! ## Rows -/

/-- The row of line number `n`: the number, to the right of four columns at least, and the text. -/
def numbered (texts : List Text) (n : Nat) : Text :=
  (Nat.toDigits 10 n).leftpad 4 ' ' ++ " | ".toList ++ texts.getD (n - 1) []

/-- The row with a caret after some blanks. -/
def pointer (blanks : Nat) : Text := "     | ".toList ++ List.replicate blanks ' ' ++ "^".toList

/-- The rows that are shown around a place: those of the lines from `context` above to its own, a
caret that tells the column, and those of the lines to `context` below. -/
def rowsAround (input : Text) (p : SourcePosition) (context : Nat) : List Text :=
  let texts := input.splitOn '\n'
  let first := max 1 (p.line - context)
  let last := min texts.length (p.line + context)
  (List.range' first (p.line + 1 - first)).map (numbered texts) ++
    pointer (p.column - 1) :: (List.range' (p.line + 1) (last - p.line)).map (numbered texts)

/-- Rows as they are printed, with a line feed after each. -/
def printed (rows : List Text) : Text := rows.flatMap (· ++ ['\n'])

theorem printed_append (rows rows' : List Text) :
    printed (rows ++ rows') = printed rows ++ printed rows' := List.flatMap_append

theorem printed_cons (row : Text) (rows : List Text) :
    printed (row :: rows) = row ++ '\n' :: printed rows := by
  rw [printed, List.flatMap_cons, List.append_assoc]
  rfl

theorem row_eq {texts : List Text} {n : Nat} {l : Line} (h : texts.getD n [] = l.text) :
    row (n + 1) l = numbered texts (n + 1) ++ ['\n'] := by
  rw [numbered, Nat.add_sub_cancel, h]
  rfl

theorem caret_eq (column : Nat) : caret column = pointer column ++ ['\n'] := by
  have hend : "^\n".toList = "^".toList ++ ['\n'] := by decide
  unfold caret pointer
  rw [hend]
  simp only [List.append_assoc]

theorem rows_append (current column index : Nat) (ls ms : List Line) :
    rows current column index (ls ++ ms) =
      rows current column index ls ++ rows current column (index + ls.length) ms := by
  induction ls generalizing index with
  | nil => rfl
  | cons l ls ih =>
    have hindex : index + (l :: ls).length = index + 1 + ls.length := by
      rw [List.length_cons]
      omega
    rw [List.cons_append, rows, rows, ih, hindex]
    simp only [List.append_assoc]

/-- Lines other than that of the caret are shown with their numbers and texts, one by one. -/
theorem rows_of_outside {texts : List Text} {ls : List Line} {current index : Nat} (column : Nat)
    (htexts : ls.map Line.text <+: texts.drop index)
    (h : current < index ∨ index + ls.length ≤ current) :
    rows current column index ls =
      printed ((List.range' (index + 1) ls.length).map (numbered texts)) := by
  induction ls generalizing index with
  | nil => rfl
  | cons l ls ih =>
    obtain ⟨rest, hrest⟩ := htexts
    rw [List.map_cons, List.cons_append] at hrest
    have hget : texts.getD index [] = l.text := by
      have hindex : texts[index]? = some l.text := by
        rw [← List.head?_drop, ← hrest]
        rfl
      rw [List.getD_eq_getElem?_getD, hindex]
      rfl
    have hdrop : texts.drop (index + 1) = ls.map Line.text ++ rest := by
      rw [← List.tail_drop, ← hrest]
      rfl
    rw [List.length_cons] at h
    -- no caret comes after this row, and the others are numbered from the next index on
    have hothers := @ih (index + 1) ⟨rest, hdrop.symm⟩ (by omega)
    rw [rows, row_eq hget, if_neg (by omega), hothers, List.length_cons, List.range'_succ,
      List.map_cons, printed_cons, List.append_nil, List.append_assoc]
    rfl

/-! ## Snippets -/

/-- The text is the snippet of a source around a place, with some lines of context. -/
structure ShowsAround (input : Text) (p : SourcePosition) (context : Nat) (out : Text) : Prop where
  /-- The line of the place is one of the source. -/
  line_mem : 1 ≤ p.line ∧ p.line ≤ (input.splitOn '\n').length
  /-- The lines around it are shown, and the caret directly below it. -/
  out_eq : out = printed (rowsAround input p context)

section Around

variable {input line : Text} {above below : List Text}
  (hinput : input.splitOn '\n' = above ++ line :: below)

include hinput

/-- The table of lines, with the line that has some lines above it. -/
theorem lines_eq : lines input = place 0 above ++ ⟨width above, line⟩ ::
    place (width above + byteLength line + 1) below := by
  rw [lines, pieces_eq_splitOn, hinput, place_append, Nat.zero_add]
  rfl

theorem getD_splitOn : (input.splitOn '\n').getD above.length [] = line := by
  rw [hinput, List.getD_eq_getElem?_getD, List.getElem?_append_right (Nat.le_refl _), Nat.sub_self]
  rfl

/-- The lines that are picked from the table: some above the line of a place, that line, and some
below it. -/
theorem take_drop_lines (context : Nat) :
    ((lines input).take (min (above.length + context + 1) (lines input).length)).drop
        (above.length - context) =
      (place 0 above).drop (above.length - context) ++ ⟨width above, line⟩ ::
        (place (width above + byteLength line + 1) below).take (min context below.length) := by
  have hcount : min (above.length + context + 1) (lines input).length =
      (place 0 above).length + (min context below.length + 1) := by
    rw [lines_eq hinput, List.length_append, List.length_cons, length_place, length_place]
    omega
  have hfirst : above.length - context ≤ (place 0 above).length := by
    rw [length_place]
    omega
  rw [hcount, lines_eq hinput, List.take_length_add_append, List.drop_append_of_le_length hfirst]
  rfl

/-- The rows around a place in that line. -/
theorem rowsAround_eq {p : SourcePosition} (hline : p.line = 1 + above.length) (context : Nat) :
    rowsAround input p context =
      (List.range' (above.length - context + 1) (above.length - (above.length - context))).map
          (numbered (input.splitOn '\n')) ++
        numbered (input.splitOn '\n') (above.length + 1) :: pointer (p.column - 1) ::
          (List.range' (above.length + 1 + 1) (min context below.length)).map
            (numbered (input.splitOn '\n')) := by
  have htotal : (input.splitOn '\n').length = above.length + 1 + below.length := by
    rw [hinput, List.length_append, List.length_cons]
    omega
  have hfirst : max 1 (p.line - context) = above.length - context + 1 := by omega
  have hupto : above.length + 1 + 1 - (above.length - context + 1) =
      above.length - (above.length - context) + 1 := by omega
  have hthis : above.length - context + 1 + (above.length - (above.length - context)) =
      above.length + 1 := by omega
  have hlast : min (input.splitOn '\n').length (p.line + context) - p.line =
      min context below.length := by omega
  have hnext : p.line + 1 = above.length + 1 + 1 := by omega
  simp only [rowsAround, hfirst, hlast, hnext, hupto]
  rw [List.range'_1_concat, hthis, List.map_append, List.append_assoc]
  rfl

/-- They are what is printed of the picked lines. -/
theorem rows_eq_rowsAround {p : SourcePosition} (hline : p.line = 1 + above.length)
    (context : Nat) :
    rows above.length (p.column - 1) (above.length - context)
        (((lines input).take (min (above.length + context + 1) (lines input).length)).drop
          (above.length - context)) =
      printed (rowsAround input p context) := by
  rw [take_drop_lines hinput, rowsAround_eq hinput hline]
  have hbefore : ((place 0 above).drop (above.length - context)).map Line.text <+:
      (input.splitOn '\n').drop (above.length - context) := by
    rw [List.map_drop, map_text_place, hinput, List.drop_append_of_le_length (Nat.sub_le _ _)]
    exact List.prefix_append _ _
  have hafter : ((place (width above + byteLength line + 1) below).take
      (min context below.length)).map Line.text <+:
        (input.splitOn '\n').drop (above.length + 1) := by
    rw [List.map_take, map_text_place, hinput, ← List.tail_drop, List.drop_left, List.tail_cons]
    exact List.take_prefix _ _
  have hlength : ((place 0 above).drop (above.length - context)).length =
      above.length - (above.length - context) := by
    rw [List.length_drop, length_place]
  have hlength' : ((place (width above + byteLength line + 1) below).take
      (min context below.length)).length = min context below.length := by
    rw [List.length_take, length_place]
    omega
  have hindex : above.length - context + (above.length - (above.length - context)) =
      above.length := by omega
  -- the rows above the line, its own row with the caret, and the rows below
  rw [rows_append, rows_of_outside _ hbefore (.inr (by omega)), hlength, hindex, rows,
    if_pos rfl, row_eq (getD_splitOn hinput), caret_eq,
    rows_of_outside _ hafter (.inl (by omega)), hlength', printed_append, printed_cons,
    printed_cons]
  simp only [List.append_assoc, List.cons_append, List.nil_append]

end Around

/-- The snippet at a place between two characters shows the lines around the line of the position,
and the caret at its column. -/
theorem render?_append (before after : Text) (context : Nat) :
    ∃ out, render? (before ++ after) (byteLength before) context = some out ∧
      ShowsAround (before ++ after)
        (SourcePosition.ofOffset (before ++ after) (byteLength before)) context out := by
  have hposition := SourcePosition.ofOffset_append before after
  obtain ⟨above, below, hinput, habove, hwidth⟩ := splitOn_append before after
  have hmin : min (byteLength before) (byteLength (before ++ after)) = byteLength before := by
    rw [byteLength_append]
    omega
  -- the line that is found in the table is that of the position
  have hholds : Line.holds (byteLength before)
      ⟨width above, lastLine before ++ firstLine after⟩ = true := by
    rw [Line.holds_iff, byteLength_append]
    dsimp only
    omega
  have hcurrent : (lines (before ++ after)).findIdx (Line.holds (byteLength before)) =
      above.length := by
    rw [lines_eq hinput]
    exact findIdx_place _ (by omega) hholds
  have hfound : (lines (before ++ after))[above.length]? =
      some ⟨width above, lastLine before ++ firstLine after⟩ := by
    rw [lines_eq hinput, List.getElem?_append_right (by rw [length_place]), length_place,
      Nat.sub_self]
    rfl
  -- and the blanks before the caret are the characters before the place
  have hcut : splitAt? (lastLine before ++ firstLine after) (byteLength before - width above) =
      some (lastLine before, firstLine after) :=
    (splitAt?_eq_some_iff _ _ _ _).2 ⟨rfl, by omega⟩
  have hline : (SourcePosition.ofOffset (before ++ after) (byteLength before)).line =
      1 + above.length := by rw [hposition, habove]
  have hcolumn : (SourcePosition.ofOffset (before ++ after) (byteLength before)).column - 1 =
      (lastLine before).length := by
    rw [hposition]
    exact Nat.add_sub_cancel_left _ _
  have hrows := rows_eq_rowsAround hinput hline context
  rw [hcolumn] at hrows
  refine ⟨_, ?_, ⟨?_, ?_⟩, rfl⟩
  · simp only [render?, hmin, hcurrent, hfound, hcut, Option.bind_eq_bind, Option.bind_some]
    exact congrArg some hrows
  · omega
  · rw [hinput, List.length_append, List.length_cons]
    omega

/-- Positions and snippets agree. The position at any offset counts the lines and columns before it;
between characters it moves forward with the offset; and there the snippet shows the lines around
the line of the position, with the caret directly below that line, at the column of the
position. -/
theorem position_snippet_agree (input : Text) :
    (∀ offset, (SourcePosition.ofOffset input offset).Counts input offset) ∧
    (∀ n m, (splitAt? input n).isSome = true → (splitAt? input m).isSome = true → n < m →
      (SourcePosition.ofOffset input n).Precedes (SourcePosition.ofOffset input m)) ∧
    ∀ offset, (splitAt? input offset).isSome = true → ∀ context,
      ∃ out, render? input offset context = some out ∧
        ShowsAround input (SourcePosition.ofOffset input offset) context out := by
  refine ⟨SourcePosition.counts_ofOffset input, ?_, ?_⟩
  · intro n m hn hm h
    exact SourcePosition.precedes_ofOffset hn hm h
  · intro offset hoffset context
    obtain ⟨⟨before, after⟩, hcut⟩ := Option.isSome_iff_exists.1 hoffset
    obtain ⟨rfl, rfl⟩ := (splitAt?_eq_some_iff _ _ _ _).1 hcut
    exact render?_append before after context

/-- At the line feed after a character of two bytes, in the second of three lines, of which one is
empty: an offset inside that character counts it as passed, the line feed comes before the start
of the next line, and one line of context is shown on either side. -/
theorem position_snippet_agree_accented :
    SourcePosition.ofOffset "ab\né\n".toList 4 = ⟨4, 2, 2⟩ ∧
    (SourcePosition.ofOffset "ab\né\n".toList 4).Counts "ab\né\n".toList 4 ∧
    (SourcePosition.ofOffset "ab\né\n".toList 5).Precedes
      (SourcePosition.ofOffset "ab\né\n".toList 6) ∧
    ∃ out, render? "ab\né\n".toList 5 1 = some out ∧
      ShowsAround "ab\né\n".toList (SourcePosition.ofOffset "ab\né\n".toList 5) 1 out := by
  obtain ⟨hcounts, hprecedes, hshows⟩ := position_snippet_agree "ab\né\n".toList
  refine ⟨by decide, hcounts 4, ?_, ?_⟩
  · exact hprecedes 5 6 (by decide) (by decide) (by decide)
  · exact hshows 5 (by decide) 1

/-! ## The caret -/

/-- In the rows of a snippet, row `i` shows a line with a place between `left` and `right`, at
index `char` of the row, and the caret of the row below it stands at index `caret`. -/
structure Marks (rows : List Text) (i : Nat) (left right : Text) (char caret : Nat) : Prop where
  /-- The place in the row of the line. -/
  above : ∃ margin, rows[i]? = some (margin ++ left ++ right) ∧ char = (margin ++ left).length
  /-- The caret, of which there is one in its row. -/
  below : ∃ row, rows[i + 1]? = some row ∧ row.count '^' = 1 ∧ caret = row.idxOf '^'

/-- The two indices are determined by the rows. -/
theorem Marks.eq_of_marks {rows : List Text} {i char caret char' caret' : Nat} {left right : Text}
    (h : Marks rows i left right char caret) (h' : Marks rows i left right char' caret') :
    char' = char ∧ caret' = caret := by
  obtain ⟨⟨margin, hrow, rfl⟩, row, hbelow, -, rfl⟩ := h
  obtain ⟨⟨margin', hrow', rfl⟩, row', hbelow', -, rfl⟩ := h'
  rw [hrow, Option.some.injEq, List.append_assoc, List.append_assoc] at hrow'
  rw [hbelow, Option.some.injEq] at hbelow'
  exact ⟨by rw [List.append_cancel_right hrow'], by rw [hbelow']⟩

theorem newline_not_mem_numbered (input : Text) (n : Nat) :
    '\n' ∉ numbered (input.splitOn '\n') n := by
  have hblanks (k : Nat) : '\n' ∉ List.replicate k ' ' := fun h =>
    absurd (List.eq_of_mem_replicate h) (by decide)
  have hdigits : '\n' ∉ Nat.toDigits 10 n := fun h =>
    absurd (Nat.isDigit_of_mem_toDigits (by decide) (by decide) h) (by decide)
  have hbar : '\n' ∉ " | ".toList := by decide
  have htext : '\n' ∉ (input.splitOn '\n').getD (n - 1) [] := by
    rw [List.getD_eq_getElem?_getD]
    cases h : (input.splitOn '\n')[n - 1]? with
    | none => exact List.not_mem_nil
    | some line => exact newline_not_mem_of_mem_splitOn (List.mem_of_getElem? h)
  simp only [numbered, List.leftpad, List.mem_append, not_or]
  exact ⟨⟨⟨hblanks _, hdigits⟩, hbar⟩, htext⟩

/-- The margin of the caret row takes seven columns, and the caret is not in it. -/
theorem pointer_eq (blanks : Nat) :
    ∃ margin : Text, pointer blanks = margin ++ ['^'] ∧ margin.length = 7 + blanks ∧
      '\n' ∉ margin ∧ '^' ∉ margin := by
  have hmargin (c : Char) (hc : c ∉ "     | ".toList) (hblank : c ≠ ' ') :
      c ∉ "     | ".toList ++ List.replicate blanks ' ' := by
    rw [List.mem_append, not_or]
    exact ⟨hc, fun h => hblank (List.eq_of_mem_replicate h)⟩
  refine ⟨"     | ".toList ++ List.replicate blanks ' ', rfl, ?_, ?_, ?_⟩
  · rw [List.length_append, List.length_replicate]
    rfl
  · exact hmargin _ (by decide) (by decide)
  · exact hmargin _ (by decide) (by decide)

/-- Rows without line feeds are read back from what is printed. -/
theorem splitOn_printed {rows : List Text} (h : ∀ row ∈ rows, '\n' ∉ row) :
    (printed rows).splitOn '\n' = rows ++ [[]] := by
  induction rows with
  | nil => rfl
  | cons row rows ih =>
    rw [List.forall_mem_cons] at h
    rw [printed_cons, List.splitOn_append_cons_self, List.splitOn_eq_singleton h.1, ih h.2]
    rfl

theorem newline_not_mem_rowsAround (input : Text) (p : SourcePosition) (context : Nat) :
    ∀ row ∈ rowsAround input p context, '\n' ∉ row := by
  have hnumbered (ns : List Nat) : ∀ row ∈ ns.map (numbered (input.splitOn '\n')), '\n' ∉ row := by
    intro row hrow
    obtain ⟨n, -, rfl⟩ := List.mem_map.1 hrow
    exact newline_not_mem_numbered input n
  have hpointer : '\n' ∉ pointer (p.column - 1) := by
    obtain ⟨margin, heq, -, hmargin, -⟩ := pointer_eq (p.column - 1)
    rw [heq, List.mem_append, not_or]
    exact ⟨hmargin, by decide⟩
  intro row hrow
  rcases List.mem_append.1 hrow with hrow | hrow
  · exact hnumbered _ row hrow
  · rcases List.mem_cons.1 hrow with rfl | hrow
    · exact hpointer
    · exact hnumbered _ row hrow

/-- The caret is seven columns and the blanks from the left, the place is as far from the left as
the margin of its row and the text before it. The margin takes seven columns too, unless the number
of the line takes more than four. -/
theorem marks_append (before after : Text) (context : Nat) :
    ∃ out, render? (before ++ after) (byteLength before) context = some out ∧
      Marks (out.splitOn '\n')
        (1 + before.count '\n' - max 1 (1 + before.count '\n' - context))
        (lastLine before) (firstLine after)
        (7 + (lastLine before).length + ((Nat.toDigits 10 (1 + before.count '\n')).length - 4))
        (7 + (lastLine before).length) := by
  obtain ⟨out, hrender, hshows⟩ := render?_append before after context
  refine ⟨out, hrender, ?_⟩
  have hposition := SourcePosition.ofOffset_append before after
  generalize SourcePosition.ofOffset (before ++ after) (byteLength before) = p at hshows hposition
  obtain ⟨above, below, hinput, habove, -⟩ := splitOn_append before after
  have hline : p.line = 1 + above.length := by rw [hposition, habove]
  have hcolumn : p.column - 1 = (lastLine before).length := by
    rw [hposition]
    exact Nat.add_sub_cancel_left _ _
  -- the row of the line and the row of the caret, after the rows above them
  have hrows := splitOn_printed (newline_not_mem_rowsAround (before ++ after) p context)
  rw [← hshows.out_eq, rowsAround_eq hinput hline, hcolumn, List.append_assoc] at hrows
  have hindex : 1 + before.count '\n' - max 1 (1 + before.count '\n' - context) =
      ((List.range' (above.length - context + 1) (above.length - (above.length - context))).map
        (numbered ((before ++ after).splitOn '\n'))).length := by
    rw [List.length_map, List.length_range', ← habove]
    omega
  rw [hrows, hindex]
  constructor
  · -- the text of the row is that of the line, and what is before it is the margin
    refine ⟨(Nat.toDigits 10 (above.length + 1)).leftpad 4 ' ' ++ " | ".toList, ?_, ?_⟩
    · rw [List.getElem?_append_right (Nat.le_refl _), Nat.sub_self, numbered, Nat.add_sub_cancel,
        getD_splitOn hinput, List.append_assoc _ (lastLine before)]
      rfl
    · have hbar : " | ".toList.length = 3 := by decide
      rw [List.length_append, List.length_append, List.length_leftpad, hbar, ← habove,
        Nat.add_comm 1]
      omega
  · obtain ⟨margin, hpointer, hlength, -, hcaret⟩ := pointer_eq (lastLine before).length
    refine ⟨margin ++ ['^'], ?_, ?_, ?_⟩
    · rw [List.getElem?_append_right (Nat.le_add_right _ 1), Nat.add_sub_cancel_left, hpointer]
      rfl
    · rw [List.count_append, List.count_eq_zero.2 hcaret]
      rfl
    · rw [List.idxOf_append_of_notMem hcaret, hlength]
      rfl

/-- The caret stands under the place exactly in the first 9999 lines; further down it stands to the
left of it, by one column for each digit beyond four that the number of the line has. -/
theorem caret_marks_iff {input before after : Text} {offset : Nat}
    (h : splitAt? input offset = some (before, after)) (context : Nat) :
    ∃ p out char caret, p = SourcePosition.ofOffset input offset ∧
      render? input offset context = some out ∧
      Marks (out.splitOn '\n') (p.line - max 1 (p.line - context)) (lastLine before)
        (firstLine after) char caret ∧
      caret = 6 + p.column ∧ char = caret + ((Nat.toDigits 10 p.line).length - 4) ∧
      (caret = char ↔ p.line < 10000) := by
  obtain ⟨rfl, rfl⟩ := (splitAt?_eq_some_iff _ _ _ _).1 h
  obtain ⟨out, hrender, hmarks⟩ := marks_append before after context
  refine ⟨_, out, _, _, (SourcePosition.ofOffset_append before after).symm, hrender, hmarks, ?_,
    rfl, ?_⟩
  · show 7 + (lastLine before).length = 6 + (1 + (lastLine before).length)
    omega
  · have hdigits : (Nat.toDigits 10 (1 + before.count '\n')).length ≤ 4 ↔
        1 + before.count '\n' < 10 ^ 4 := Nat.length_toDigits_le_iff (by decide) (by decide)
    show _ ↔ 1 + before.count '\n' < 10 ^ 4
    rw [← hdigits]
    omega

/-- In the second line, after a character of two bytes, the caret stands under the place. -/
theorem caret_marks_iff_accented :
    splitAt? "a\né+b".toList 4 = some ("a\né".toList, "+b".toList) ∧
    ∃ p out char caret, p = SourcePosition.ofOffset "a\né+b".toList 4 ∧
      render? "a\né+b".toList 4 1 = some out ∧
      Marks (out.splitOn '\n') (p.line - max 1 (p.line - 1)) (lastLine "a\né".toList)
        (firstLine "+b".toList) char caret ∧
      caret = 6 + p.column ∧ char = caret + ((Nat.toDigits 10 p.line).length - 4) ∧
      (caret = char ↔ p.line < 10000) :=
  have h : splitAt? "a\né+b".toList 4 = some ("a\né".toList, "+b".toList) := by decide
  ⟨h, caret_marks_iff h 1⟩

theorem byteLength_newlines (n : Nat) : byteLength (List.replicate n '\n') = n := by
  induction n with
  | zero => rfl
  | succ n ih =>
    rw [List.replicate_succ, byteLength_cons, ih]
    exact Nat.add_comm 1 n

theorem lastLine_newlines (n : Nat) : lastLine (List.replicate n '\n') = [] := by
  cases n with
  | zero => rfl
  | succ n => rw [List.replicate_succ', lastLine_concat_newline]

/-- In line 10000 the caret stands one column to the left of the place. -/
theorem caret_marks_off :
    splitAt? (List.replicate 9999 '\n' ++ ['x']) 9999 =
      some (List.replicate 9999 '\n', ['x']) ∧
    (SourcePosition.ofOffset (List.replicate 9999 '\n' ++ ['x']) 9999).line = 10000 ∧
    ∃ out, render? (List.replicate 9999 '\n' ++ ['x']) 9999 0 = some out ∧
      Marks (out.splitOn '\n') 0 [] ['x'] 8 7 ∧
      ∀ k, ¬ Marks (out.splitOn '\n') 0 [] ['x'] k k := by
  have hposition := SourcePosition.ofOffset_append (List.replicate 9999 '\n') ['x']
  obtain ⟨out, hrender, hmarks⟩ := marks_append (List.replicate 9999 '\n') ['x'] 0
  have hdigits : (Nat.toDigits 10 (1 + 9999)).length = 5 := by decide
  rw [byteLength_newlines, List.count_replicate_self] at hposition
  rw [byteLength_newlines] at hrender
  rw [List.count_replicate_self, lastLine_newlines, hdigits] at hmarks
  have hmarks : Marks (out.splitOn '\n') 0 [] ['x'] 8 7 := hmarks
  refine ⟨?_, ?_, out, hrender, hmarks, ?_⟩
  · exact (splitAt?_eq_some_iff _ _ _ _).2 ⟨rfl, byteLength_newlines 9999⟩
  · rw [hposition]
  · intro k hk
    obtain ⟨rfl, hcaret⟩ := hmarks.eq_of_marks hk
    exact absurd hcaret (by decide)

end FlatExpr.Snippet
