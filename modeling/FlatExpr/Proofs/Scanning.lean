import FlatExpr.Proofs.Spans
import FlatExpr.Scanner

/-!
# Scanning cuts by the boundary rule

A scanner never breaks off and yields exactly the lexemes of its source
(`Scanner.collect_ofSource`).
What it keeps between two lexemes is described by the text that was yielded and the text of the
pending lexeme (`Scanner.At`): each step moves the boundary between the two, and the cut of the
source by the boundary rule moves along with it.

The lexemes cover their source from the first byte to the last without gap or overlap, there is one
that starts between two neighbouring characters exactly where the boundary rule says so, and each is
a run that cannot be made longer or a single character (`Lexeme.CutOf`).
-/

namespace FlatExpr

/-! ## The lexemes that a scanner yields -/

namespace Lexeme

/-- The first lexeme of a text is a run that ends where the boundary rule cuts. -/
theorem texts_run_append {t rest : Text} {x y : Char}
    (hrun : t.IsChain fun x y => together x y = true) (hx : t.getLast? = some x)
    (hcut : together x y = false) :
    texts (t ++ y :: rest) = t :: texts (y :: rest) := by
  have hne : t ≠ [] := by
    rintro rfl
    cases hx
  have hleft : texts t = [t] := List.splitBy_of_isChain hne hrun
  rw [texts_append, hleft]
  · rfl
  · intro x' hx' y' hy'
    obtain rfl : x = x' := Option.some.inj (hx.symm.trans hx')
    obtain rfl : y = y' := Option.some.inj hy'
    exact hcut

end Lexeme

namespace Scanner

/-- The scanner has yielded the text `passed` and has looked at the text `pending` after it, in
which the boundary rule does not cut. -/
structure At (s : Scanner) (passed pending : Text) : Prop where
  /-- The source is what was yielded, what is pending and what was not looked at. -/
  source : s.source = passed ++ (pending ++ s.unread)
  /-- The pending lexeme starts after what was yielded. -/
  start : s.start = Text.byteLength passed
  /-- The first character that was not looked at stands after the pending lexeme. -/
  index : s.index = s.start + Text.byteLength pending
  /-- The kind that is kept is that of the last pending character. -/
  before : s.unread ≠ [] → s.before = pending.getLast?.map CharKind.of
  /-- The pending characters belong together. -/
  joined : pending.IsChain fun x y => Lexeme.together x y = true

variable {s : Scanner} {passed pending : Text}

theorem at_ofSource (source : Text) : (ofSource source).At [] [] where
  source := rfl
  start := rfl
  index := rfl
  before _ := rfl
  joined := .nil

/-- Whether a character starts a new lexeme after the pending ones. -/
theorem any_startsAfter_iff (pending : Text) (c : Char) :
    (pending.getLast?.map CharKind.of).any (CharKind.of c).startsAfter = true ↔
      ∃ x, pending.getLast? = some x ∧ Lexeme.together x c = false := by
  cases pending.getLast? <;> simp [Lexeme.together]

/-- The next span is that of the first lexeme of the text that is left, if any is left. -/
theorem At.advance (h : s.At passed pending) :
    (pending ++ s.unread = [] ∧ (advance s.source s.start s.before s.index s.unread).1 = none) ∨
      ∃ t rest s' pending', Lexeme.texts (pending ++ s.unread) = t :: Lexeme.texts rest ∧
        pending ++ s.unread = t ++ rest ∧
        Scanner.advance s.source s.start s.before s.index s.unread =
          (some (s.start, s.start + Text.byteLength t), s') ∧
        s'.At (passed ++ t) pending' ∧ pending' ++ s'.unread = rest := by
  -- the characters are looked at one by one, by induction on those that are left
  obtain ⟨source, unread, index, start, before⟩ := s
  induction unread generalizing pending index before with
  | nil =>
    obtain ⟨hsource, hstart, hindex, -, hjoined⟩ := h
    dsimp only at hsource hstart hindex ⊢
    rw [List.append_nil] at hsource ⊢
    have hlength : Text.byteLength source = start + Text.byteLength pending := by
      rw [hsource, Text.byteLength_append, hstart]
    cases pending with
    | nil =>
      have hend : ¬ start < Text.byteLength source := by simp [hlength]
      exact .inl ⟨rfl, by simp [Scanner.advance, hend]⟩
    | cons c cs =>
      have hlt : start < Text.byteLength source := by
        have hpos := c.utf8Size_pos
        rw [hlength, Text.byteLength_cons]
        omega
      refine .inr ⟨c :: cs, [], ⟨source, [], index, Text.byteLength source, before⟩, [], ?_, ?_, ?_,
        ⟨?_, ?_, ?_, ?_, .nil⟩, rfl⟩
      · exact List.splitBy_of_isChain (List.cons_ne_nil c cs) hjoined
      · rw [List.append_nil]
      · rw [← hlength]
        simp [Scanner.advance, hlt]
      · rw [hsource, List.append_nil, List.append_nil]
      · rw [hsource]
      · exact hindex.trans hlength.symm
      · exact fun hne => absurd rfl hne
  | cons c cs ih =>
    obtain ⟨hsource, hstart, hindex, hbefore, hjoined⟩ := h
    dsimp only at hsource hstart hindex hbefore ⊢
    have hbefore := hbefore (List.cons_ne_nil c cs)
    by_cases hcut : before.any (CharKind.of c).startsAfter = true
    · -- the pending characters are a lexeme, and the character is pending
      obtain ⟨x, hx, htogether⟩ := (any_startsAfter_iff pending c).1 (hbefore ▸ hcut)
      refine .inr ⟨pending, c :: cs, ⟨source, cs, index + c.utf8Size, index, some (.of c)⟩, [c],
        Lexeme.texts_run_append hjoined hx htogether, rfl, ?_, ⟨?_, ?_, ?_, ?_, ?_⟩, rfl⟩
      · simp [Scanner.advance, hcut, hindex]
      · rw [hsource, List.append_assoc]; rfl
      · rw [Text.byteLength_append, ← hstart]; exact hindex
      · rfl
      · exact fun _ => rfl
      · exact .singleton c
    · -- the character belongs to the pending lexeme
      have hgrown : (⟨source, cs, index + c.utf8Size, start, some (.of c)⟩ : Scanner).At passed
          (pending ++ [c]) := by
        refine ⟨?_, hstart, ?_, ?_, ?_⟩
        · rw [hsource, List.append_assoc]; rfl
        · simp [hindex, Nat.add_assoc]
        · intro _
          rw [List.getLast?_concat]
          rfl
        · refine List.isChain_append.2 ⟨hjoined, .singleton c, ?_⟩
          intro x hx y hy
          obtain rfl : c = y := Option.some.inj hy
          by_contra htogether
          exact hcut (hbefore ▸ (any_startsAfter_iff pending c).2 ⟨x, hx, by simpa using htogether⟩)
      have hlater := ih (index + c.utf8Size) (some (.of c)) hgrown
      have hadvance : Scanner.advance source start before index (c :: cs) =
          Scanner.advance source start (some (.of c)) (index + c.utf8Size) cs := by
        simp [Scanner.advance, hcut]
      dsimp only at hlater
      rw [List.append_assoc] at hlater
      rw [hadvance]
      exact hlater

/-- From where the pending lexeme starts, the source reads what is left. -/
theorem At.reads (h : s.At passed pending) :
    (s.source : Source).Reads s.start (pending ++ s.unread) :=
  ⟨passed, h.source, h.start.symm⟩

/-- Asked for a lexeme, a scanner yields the first one of the text that is left. -/
theorem At.next (h : s.At passed pending) :
    (pending ++ s.unread = [] ∧ s.next = .ended) ∨
      ∃ l rest s' pending', Lexeme.texts (pending ++ s.unread) = l.text :: Lexeme.texts rest ∧
        pending ++ s.unread = l.text ++ rest ∧ s.next = .lexeme l s' ∧ l.source = s.source ∧
        l.start = s.start ∧ s'.At (passed ++ l.text) pending' ∧ pending' ++ s'.unread = rest := by
  rcases h.advance with
    ⟨hnil, hadvance⟩ | ⟨t, rest, s', pending', htexts, hleft, hadvance, hat, hrest⟩
  · left
    refine ⟨hnil, ?_⟩
    unfold Scanner.next
    generalize Scanner.advance s.source s.start s.before s.index s.unread = x at hadvance
    obtain ⟨span, s'⟩ := x
    cases hadvance
    rfl
  · right
    let l : Lexeme := ⟨s.source, s.start, t, rest, hleft ▸ h.reads⟩
    have hspan : Lexeme.ofSpan? s.source s.start (s.start + Text.byteLength t) = some l :=
      Lexeme.ofSpan?_eq_some_iff.2 ⟨rfl, rfl, rfl⟩
    refine ⟨l, rest, s', pending', htexts, hleft, ?_, rfl, rfl, hat, hrest⟩
    simp only [Scanner.next, hadvance, hspan]

/-- The lexemes that are left are those that the text that is left is cut into. -/
theorem At.collect (h : s.At passed pending) :
    s.collect = some (Lexeme.spans s.source s.start (pending ++ s.unread) h.reads
      (Lexeme.texts (pending ++ s.unread))) := by
  generalize hts : Lexeme.texts (pending ++ s.unread) = ts
  induction ts generalizing s passed pending with
  | nil =>
    rcases h.next with ⟨-, hnext⟩ | ⟨l, rest, s', pending', htexts, -⟩
    · exact collect_of_ended hnext
    · rw [hts] at htexts
      cases htexts
  | cons t ts ih =>
    rcases h.next with
      ⟨hnil, -⟩ | ⟨l, rest, s', pending', htexts, hleft, hnext, hsource, hstart, hat, hrest⟩
    · rw [hnil] at hts
      cases hts
    · obtain ⟨rfl, rfl⟩ := List.cons.inj (hts.symm.trans htexts)
      have hsame : (s'.source : Source) = l.source := by
        rw [hsource, hat.source, h.source, hrest, hleft, List.append_assoc]
      have hstop : s'.start = l.stop := by
        rw [hat.start, Text.byteLength_append, ← h.start, ← hstart]
        rfl
      have hlrest : pending' ++ s'.unread = l.rest := by
        have hreads := hat.reads
        rw [hsame, hstop] at hreads
        exact hreads.unique l.reads_stop
      have hunread : pending ++ s.unread = l.text ++ l.rest := by
        rw [hleft, ← hrest, hlrest]
      rw [collect_of_lexeme hnext, ih hat (by rw [hrest])]
      simp only [hsame, hstop, hlrest, ← hsource, ← hstart, hunread]
      rw [Option.map_some, Lexeme.spans_cons]

/-- A scan never breaks off, and yields the lexemes of the source. -/
theorem collect_ofSource (source : Text) :
    (ofSource source).collect = some (Lexeme.all source) :=
  (at_ofSource source).collect

end Scanner

/-! ## Runs -/

namespace CharKind

/-- Whether characters of the kind are lexemes of their own. -/
def standsAlone : CharKind → Bool
  | .brackets | .quote | .other => true
  | _ => false

/-- The groups of kinds that form runs: blanks, punctuation, and word characters. -/
def runGroups : List (CharKind → Bool) := [(· == .whitespace), (· == .punctuation), isWord]

theorem standsAlone_or_mem_runGroups (kind : CharKind) :
    kind.standsAlone = true ∨ ∃ group ∈ runGroups, group kind = true := by
  cases kind <;> simp [standsAlone, runGroups, isWord]

/-- A character that stands alone is cut off from what follows it. -/
theorem startsAfter_of_standsAlone {before : CharKind} (h : before.standsAlone = true)
    (this : CharKind) : this.startsAfter before = true := by
  revert h
  cases before <;> cases this <;> decide

/-- Next to a character of a group, the boundary rule cuts exactly where the other character is
not of the group. -/
theorem startsAfter_of_group {group : CharKind → Bool} (hgroup : group ∈ runGroups)
    {this before : CharKind} (h : group this = true ∨ group before = true) :
    this.startsAfter before = false ↔ group this = true ∧ group before = true := by
  simp only [runGroups, List.mem_cons, List.not_mem_nil, or_false] at hgroup
  rcases hgroup with rfl | rfl | rfl <;> cases this <;> cases before <;> revert h <;> decide

end CharKind

namespace Lexeme

/-- The lexeme is a run of characters of a group, and the characters next to it on both sides are
not of the group. -/
def MaximalRun (source : Text) (group : CharKind → Bool) (l : Lexeme) : Prop :=
  ∃ passed, source = passed ++ (l.text ++ l.rest) ∧ Text.byteLength passed = l.start ∧
    (∀ c ∈ l.text, group (.of c) = true) ∧
    (∀ x ∈ passed.getLast?, group (.of x) = false) ∧ ∀ y ∈ l.rest.head?, group (.of y) = false

/-- The lexemes are those that the boundary rule cuts the source into. -/
structure CutOf (source : Text) (ls : List Lexeme) : Prop where
  /-- No lexeme is empty. -/
  nonempty : ∀ l ∈ ls, l.text ≠ []
  /-- Every lexeme is the span of the source between its offsets, which are inside no character. -/
  spans : ∀ l ∈ ls, ofSpan? source l.start l.stop = some l
  /-- The first lexeme starts at the start of the source. -/
  first : ∀ l ∈ ls.head?, l.start = 0
  /-- Each lexeme starts where the one before it ends. -/
  contiguous : ls.IsChain fun l m => l.stop = m.start
  /-- The last lexeme ends at the end of the source. -/
  last : ∀ l ∈ ls.getLast?, l.stop = Text.byteLength source
  /-- Together the lexemes are the source. -/
  flatten : (ls.map text).flatten = source
  /-- A lexeme starts between two neighbours exactly where the boundary rule says so. -/
  cuts : ∀ before x y after, source = before ++ x :: y :: after →
    ((∃ l ∈ ls, l.start = Text.byteLength (before ++ [x])) ↔
      (CharKind.of y).startsAfter (.of x) = true)
  /-- Every lexeme is a run that cannot be made longer, or a single character that stands alone. -/
  runs : ∀ l ∈ ls, MaximalRun source (· == .whitespace) l ∨
    MaximalRun source (· == .punctuation) l ∨ MaximalRun source CharKind.isWord l ∨
    ∃ c, l.text = [c] ∧
      (CharKind.of c = .brackets ∨ CharKind.of c = .quote ∨ CharKind.of c = .other)

theorem text_mem_texts {source : Text} {l : Lexeme} (hl : l ∈ all source) :
    l.text ∈ texts source := by
  rw [← map_text_all]
  exact List.mem_map_of_mem hl

/-- Each span starts where the one before it ends. -/
theorem isChain_spans {source : Source} {start : Nat} {unread : Text}
    (h : source.Reads start unread) (ts : List Text) :
    (spans source start unread h ts).IsChain fun l m => l.stop = m.start := by
  induction ts generalizing start unread with
  | nil => exact .nil
  | cons t ts ih =>
    let l : Lexeme := ⟨source, start, unread.take t.length, unread.drop t.length,
      (List.take_append_drop t.length unread).symm ▸ h⟩
    have hlater := ih l.reads_stop
    cases ts with
    | nil => exact .singleton _
    | cons u ts => exact .cons_cons rfl hlater

/-- Between two neighbouring lexemes the boundary rule cuts. -/
theorem all_neighbours {source : Text} {before after : List Lexeme} {l m : Lexeme}
    (h : all source = before ++ l :: m :: after) :
    ∃ x y, l.text.getLast? = some x ∧ m.text.head? = some y ∧ together x y = false := by
  have hchain := List.isChain_getLast_head_splitBy together source
  have htexts : source.splitBy together =
      before.map text ++ l.text :: m.text :: after.map text := by
    rw [← texts, ← map_text_all, h, List.map_append, List.map_cons, List.map_cons]
  rw [htexts] at hchain
  obtain ⟨hl, hm, hcut⟩ := (List.isChain_cons_cons.1 (List.isChain_append.1 hchain).2.1).1
  exact ⟨_, _, List.getLast?_eq_some_getLast hl, List.head?_eq_some_head hm, hcut⟩

/-- A lexeme starts between two neighbouring characters exactly where the boundary rule cuts. -/
theorem exists_lexeme_iff {source before after : Text} {x y : Char}
    (h : source = before ++ x :: y :: after) :
    (∃ l ∈ all source, l.start = Text.byteLength (before ++ [x])) ↔ together x y = false := by
  have hsplit : source = (before ++ [x]) ++ y :: after := by
    rw [h, List.append_assoc]
    rfl
  constructor
  · rintro ⟨l, hl, hstart⟩
    obtain ⟨as, bs, hall⟩ := List.append_of_mem hl
    obtain ⟨hsource, hbytes, -⟩ := all_split hall
    -- both cuts are after the same number of bytes
    have hcut : Text.splitAt? source l.start = some ((as.map text).flatten, l.remainder) :=
      (Text.splitAt?_eq_some_iff _ _ _ _).2 ⟨hsource, hbytes.symm⟩
    have hcut' : Text.splitAt? source l.start = some (before ++ [x], y :: after) :=
      (Text.splitAt?_eq_some_iff _ _ _ _).2 ⟨hsplit, hstart.symm⟩
    obtain ⟨hpassed, hremainder⟩ := Prod.mk.inj (Option.some.inj (hcut.symm.trans hcut'))
    rcases List.eq_nil_or_concat as with rfl | ⟨as, m, rfl⟩
    · simp at hpassed
    rw [List.concat_eq_append] at hall hpassed
    obtain ⟨x', y', hx', hy', htogether⟩ := all_neighbours (by
      rw [hall, List.append_assoc]; rfl)
    have hxx : x' = x := by
      have hlast := congrArg List.getLast? hpassed
      simpa [hx'] using hlast
    have hyy : y' = y := by
      have hhead := congrArg List.head? hremainder
      simpa [remainder, hy'] using hhead
    rw [← hxx, ← hyy]
    exact htogether
  · intro hcut
    have htexts : (all source).map text = texts (before ++ [x]) ++ texts (y :: after) := by
      rw [map_text_all, hsplit, texts_append]
      intro x' hx' y' hy'
      rw [List.getLast?_concat] at hx'
      obtain rfl : x = x' := Option.some.inj hx'
      obtain rfl : y = y' := Option.some.inj hy'
      exact hcut
    obtain ⟨as, bs, hall, has, hbs⟩ := List.map_eq_append_iff.1 htexts
    obtain ⟨u, us, hus, -⟩ := exists_texts_cons (t := y :: after) rfl
    cases bs with
    | nil =>
      rw [hus] at hbs
      cases hbs
    | cons l bs =>
      refine ⟨l, by rw [hall]; simp, ?_⟩
      rw [(all_split hall).2.1, has]
      exact congrArg Text.byteLength (List.flatten_splitBy together (before ++ [x]))

/-- The characters of a lexeme have the groups of its first character. -/
theorem group_of_isChain {group : CharKind → Bool} (hgroup : group ∈ CharKind.runGroups)
    {c : Char} {cs : Text} (h : (c :: cs).IsChain fun x y => together x y = true)
    (hc : group (.of c) = true) : ∀ z ∈ c :: cs, group (.of z) = true := by
  induction cs generalizing c with
  | nil => simpa using hc
  | cons d cs ih =>
    obtain ⟨hcd, hrest⟩ := List.isChain_cons_cons.1 h
    have hd : group (.of d) = true :=
      ((CharKind.startsAfter_of_group hgroup (.inr hc)).1 (by simpa [together] using hcd)).1
    intro z hz
    rcases List.mem_cons.1 hz with rfl | hz
    · exact hc
    · exact ih hrest hd z hz

/-- A lexeme whose first character is of a group is a run of that group that cannot be made
longer. -/
theorem maximalRun_of_group {source : Text} {l : Lexeme} (hl : l ∈ all source)
    {group : CharKind → Bool} (hgroup : group ∈ CharKind.runGroups) {c : Char}
    (hc : l.text.head? = some c) (hkind : group (.of c) = true) : MaximalRun source group l := by
  obtain ⟨before, after, hall⟩ := List.append_of_mem hl
  obtain ⟨hsource, hstart, hrest⟩ := all_split hall
  have hmem : ∀ z ∈ l.text, group (.of z) = true := by
    obtain ⟨cs, hcs⟩ := List.head?_eq_some_iff.1 hc
    have hchain := List.isChain_of_mem_splitBy (text_mem_texts hl)
    rw [hcs] at hchain ⊢
    exact group_of_isChain hgroup hchain hkind
  refine ⟨(before.map text).flatten, hsource, hstart.symm, hmem, ?_, ?_⟩
  · -- the lexeme before it ends in a character of another group
    intro x hx
    rcases List.eq_nil_or_concat before with rfl | ⟨before, m, rfl⟩
    · cases hx
    rw [List.concat_eq_append] at hall hx
    obtain ⟨x', y', hx', hy', hcut⟩ := all_neighbours (by
      rw [hall, List.append_assoc]; rfl)
    obtain rfl : c = y' := Option.some.inj (hc.symm.trans hy')
    obtain rfl : x' = x := by simpa [hx'] using hx
    by_contra hgroupx
    have htogether := (CharKind.startsAfter_of_group hgroup (.inl hkind)).2
      ⟨hkind, by simpa using hgroupx⟩
    simp [together, htogether] at hcut
  · -- and so the lexeme after it starts
    intro y hy
    cases after with
    | nil =>
      rw [hrest] at hy
      cases hy
    | cons m after =>
      obtain ⟨x', y', hx', hy', hcut⟩ := all_neighbours hall
      obtain rfl : y' = y := by simpa [hrest, hy'] using hy
      have hgroupx : group (.of x') = true := hmem x' (List.mem_of_getLast? hx')
      by_contra hgroupy
      have htogether := (CharKind.startsAfter_of_group hgroup (.inr hgroupx)).2
        ⟨by simpa using hgroupy, hgroupx⟩
      simp [together, htogether] at hcut

/-- A lexeme whose first character stands alone is that character. -/
theorem eq_singleton_of_standsAlone {source : Text} {l : Lexeme} (hl : l ∈ all source) {c : Char}
    (hc : l.text.head? = some c) (hkind : (CharKind.of c).standsAlone = true) : l.text = [c] := by
  obtain ⟨cs, hcs⟩ := List.head?_eq_some_iff.1 hc
  have hchain := List.isChain_of_mem_splitBy (text_mem_texts hl)
  rw [hcs] at hchain ⊢
  cases cs with
  | nil => rfl
  | cons d cs =>
    have hcd := (List.isChain_cons_cons.1 hchain).1
    simp [together, CharKind.startsAfter_of_standsAlone hkind] at hcd

/-- The lexemes of a source are those that the boundary rule cuts it into. -/
theorem cutOf_all (source : Text) : CutOf source (all source) where
  nonempty l hl := (tidy_texts source).nonempty _ (text_mem_texts hl)
  spans l hl := ofSpan?_eq_some_iff.2 ⟨source_of_mem_all hl, rfl, rfl⟩
  first l hl := by
    obtain ⟨after, hall⟩ := List.head?_eq_some_iff.1 hl
    exact (all_split (show all source = [] ++ l :: after from hall)).2.1
  contiguous := isChain_spans _ (texts source)
  last l hl := by
    obtain ⟨before, hall⟩ := List.getLast?_eq_some_iff.1 hl
    obtain ⟨hsource, hstart, hrest⟩ := all_split hall
    rw [stop, hstart, hsource, remainder, hrest]
    simp
  flatten := by
    rw [map_text_all]
    exact List.flatten_splitBy together source
  cuts before x y after h := by
    rw [exists_lexeme_iff h]
    simp [together]
  runs l hl := by
    have hne : l.text ≠ [] := (tidy_texts source).nonempty _ (text_mem_texts hl)
    have hc := List.head?_eq_some_head hne
    rcases CharKind.standsAlone_or_mem_runGroups (.of (l.text.head hne)) with h | ⟨group, hgroup, h⟩
    · refine .inr (.inr (.inr ⟨_, eq_singleton_of_standsAlone hl hc h, ?_⟩))
      revert h
      cases CharKind.of (l.text.head hne) <;> decide
    · have hrun := maximalRun_of_group hl hgroup hc h
      simp only [CharKind.runGroups, List.mem_cons, List.not_mem_nil, or_false] at hgroup
      rcases hgroup with rfl | rfl | rfl
      · exact .inl hrun
      · exact .inr (.inl hrun)
      · exact .inr (.inr (.inl hrun))

end Lexeme

/-- A scan of any source runs to its end without breaking off, and yields the lexemes that the
boundary rule cuts the source into. -/
theorem Scanner.collect_cutOf (source : Text) :
    (ofSource source).collect = some (Lexeme.all source) ∧
      Lexeme.CutOf source (Lexeme.all source) :=
  ⟨collect_ofSource source, Lexeme.cutOf_all source⟩

end FlatExpr
