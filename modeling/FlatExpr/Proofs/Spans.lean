import FlatExpr.Proofs.Lexemes

/-!
# Where lexemes stand

A lexeme cuts its source in two. What is before it takes as many bytes as its offset says, and from
there on the source is the remainder of the lexeme (`all_place`). The boundary rule looks at
neighbours only, so the remainder falls apart into the lexemes from that one on, and a reading that
stops before a lexeme can be taken up again with the remainder as its source. No two lexemes stand
at the same place (`start_inj`).
-/

namespace FlatExpr.Lexeme

/-- The texts of some lexemes up to the last one are those that their concatenation is cut into. -/
theorem texts_flatten {source : Text} {before after : List Text}
    (h : texts source = before ++ after) : texts after.flatten = after := by
  obtain ⟨-, hnil, htogether, hcuts⟩ := List.splitBy_eq_iff.1 h
  refine List.splitBy_flatten ?_ ?_ (List.isChain_append.1 hcuts).2.1
  · exact fun hmem => hnil (List.mem_append_right before hmem)
  · exact fun t ht => htogether t (List.mem_append_right before ht)

/-- A span, and the spans after it. -/
theorem spans_cons (l : Lexeme) (ts : List Text) :
    spans l.source l.start (l.text ++ l.rest) l.reads (l.text :: ts) =
      l :: spans l.source l.stop l.rest l.reads_stop ts := by
  simp only [spans, stop, List.take_left, List.drop_left]

/-- Spans are of the source that they were cut from. -/
theorem source_of_mem_spans {source : Source} {start : Nat} {unread : Text}
    {h : source.Reads start unread} {ts : List Text} {l : Lexeme}
    (hl : l ∈ spans source start unread h ts) : l.source = source := by
  induction ts generalizing start unread with
  | nil => cases hl
  | cons t ts ih =>
    rcases List.mem_cons.1 hl with rfl | hl
    · rfl
    · exact ih hl

theorem source_of_mem_all {source : Text} {l : Lexeme} (hl : l ∈ all source) :
    l.source = source :=
  source_of_mem_spans hl

/-- The offset of a span is where the spans before it end. -/
theorem start_of_spans {source : Source} {start : Nat} {unread : Text}
    {h : source.Reads start unread} {ts : List Text} {before after : List Lexeme} {l : Lexeme}
    (hspans : spans source start unread h ts = before ++ l :: after) :
    l.start = start + Text.byteLength (before.map text).flatten := by
  induction before generalizing start unread ts with
  | nil =>
    cases ts with
    | nil => cases hspans
    | cons t ts =>
      obtain ⟨rfl, -⟩ := List.cons.inj hspans
      rfl
  | cons m before ih =>
    cases ts with
    | nil => cases hspans
    | cons t ts =>
      obtain ⟨rfl, hrest⟩ := List.cons.inj hspans
      rw [ih hrest, List.map_cons, List.flatten_cons, Text.byteLength_append, ← Nat.add_assoc]
      rfl

/-- A source is the lexemes before one of them, that lexeme and those after it. -/
theorem all_split {source : Text} {before after : List Lexeme} {l : Lexeme}
    (h : all source = before ++ l :: after) :
    source = (before.map text).flatten ++ l.remainder ∧
      l.start = Text.byteLength (before.map text).flatten ∧
      l.rest = (after.map text).flatten := by
  have hstart : l.start = Text.byteLength (before.map text).flatten := by
    rw [start_of_spans h, Nat.zero_add]
  have htexts : source = (before.map text).flatten ++ (l.text ++ (after.map text).flatten) := by
    rw [← List.flatten_cons, ← List.flatten_append, ← List.map_cons, ← List.map_append, ← h,
      map_text_all, flatten_texts]
  -- the lexeme and those after it stand where the source reads the remainder of the lexeme
  have hremainder : l.text ++ l.rest = l.text ++ (after.map text).flatten := by
    refine l.reads.unique ⟨(before.map text).flatten, ?_, hstart.symm⟩
    rw [source_of_mem_all (by rw [h]; simp)]
    exact htexts
  refine ⟨?_, hstart, List.append_cancel_left hremainder⟩
  rw [remainder, hremainder]
  exact htexts

/-- A lexeme of a source stands where it says, before its remainder, and the remainder is cut into
the lexemes from that one on. -/
theorem all_place {source : Text} {before after : List Lexeme} {l : Lexeme}
    (h : all source = before ++ l :: after) :
    (∃ passed, Text.splitAt? source l.start = some (passed, l.remainder)) ∧
      texts l.remainder = (l :: after).map text := by
  obtain ⟨hsource, hstart, hrest⟩ := all_split h
  have hremainder : l.remainder = ((l :: after).map text).flatten := by
    rw [remainder, hrest, List.map_cons, List.flatten_cons]
  constructor
  · exact ⟨(before.map text).flatten,
      (Text.splitAt?_eq_some_iff _ _ _ _).2 ⟨hsource, hstart.symm⟩⟩
  · have htexts : texts source = before.map text ++ (l :: after).map text := by
      rw [← map_text_all, h, List.map_append]
    rw [hremainder]
    exact texts_flatten htexts

/-- No two lexemes of a source start at the same place. -/
theorem start_inj {source : Text} {l m : Lexeme} (hl : l ∈ all source) (hm : m ∈ all source)
    (h : l.start = m.start) : l = m := by
  obtain ⟨_, _, hall⟩ := List.append_of_mem hl
  obtain ⟨-, htexts⟩ := all_place hall
  obtain ⟨_, _, hall'⟩ := List.append_of_mem hm
  obtain ⟨-, htexts'⟩ := all_place hall'
  have hsource : l.source = m.source := by rw [source_of_mem_all hl, source_of_mem_all hm]
  -- from there on the source is the same, and so is its first lexeme
  have hremainder : l.remainder = m.remainder := by
    have hreads := l.reads
    rw [hsource, h] at hreads
    exact hreads.unique m.reads
  have htext : l.text = m.text := by
    rw [hremainder, htexts', List.map_cons, List.map_cons] at htexts
    exact (List.cons.inj htexts).1.symm
  refine ext_span hsource h ?_
  rw [stop, stop, h, htext]

end FlatExpr.Lexeme
