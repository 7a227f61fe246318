import FlatExpr.Lexeme

/-!
# Stretches of a source

A stretch is a part of a source that grows at its end, lexeme by lexeme. A lexeme is added only if
it is of the same source and starts where the stretch stops; what it says is not looked at. The
stretch is kept as the source from its start on and the source after it, so that growing costs no
more than the comparison; its text is cut out of the source once, by the number of its bytes. That
it says what the lexemes said follows from their being spans of that source
(`Stretch.text_of_extend?`).
-/

namespace FlatExpr

/-- A part of a source. -/
structure Stretch where
  /-- The source. -/
  source : Source
  /-- The byte offset where it starts. -/
  start : Nat
  /-- The byte offset just after it. -/
  stop : Nat
  /-- The source from its start on. -/
  remainder : Text
  /-- The source after it. -/
  rest : Text
  /-- From its start on, the source reads the remainder. -/
  reads : source.Reads start remainder
  /-- Between the two offsets lies what the remainder has before the rest. -/
  cut : ∃ t, remainder = t ++ rest ∧ start + Text.byteLength t = stop

namespace Stretch

/-- The characters of the stretch: as many bytes of the remainder as lie between its offsets. -/
def text (s : Stretch) : Text :=
  match Text.splitAt? s.remainder (s.stop - s.start) with
  | some (t, _) => t
  | none => []

/-- The text is what the remainder has before the rest. -/
theorem text_eq_of_cut (s : Stretch) {t : Text} (h : s.remainder = t ++ s.rest)
    (hbytes : s.start + Text.byteLength t = s.stop) : s.text = t := by
  have hsplit : Text.splitAt? s.remainder (s.stop - s.start) = some (t, s.rest) :=
    (Text.splitAt?_eq_some_iff _ _ _ _).2 ⟨h, by omega⟩
  simp [text, hsplit]

/-- The remainder is the text and what follows it. -/
theorem remainder_eq (s : Stretch) : s.remainder = s.text ++ s.rest := by
  obtain ⟨t, ht, hbytes⟩ := s.cut
  rw [s.text_eq_of_cut ht hbytes]
  exact ht

/-- The text takes the bytes between the two offsets. -/
theorem start_add_byteLength (s : Stretch) : s.start + Text.byteLength s.text = s.stop := by
  obtain ⟨t, ht, hbytes⟩ := s.cut
  rw [s.text_eq_of_cut ht hbytes]
  exact hbytes

/-- A lexeme as a stretch. -/
def ofLexeme (l : Lexeme) : Stretch :=
  ⟨l.source, l.start, l.stop, l.remainder, l.rest, l.reads, l.text, rfl, rfl⟩

/-- The stretch as one lexeme. -/
def toLexeme (s : Stretch) : Lexeme :=
  ⟨s.source, s.start, s.text, s.rest, s.remainder_eq ▸ s.reads⟩

/-- Whether a lexeme stands in the same source, directly after the stretch. -/
def isFollowedBy (s : Stretch) (l : Lexeme) : Bool :=
  decide (s.source = l.source) && decide (s.stop = l.start)

@[simp] theorem isFollowedBy_iff {s : Stretch} {l : Lexeme} :
    s.isFollowedBy l = true ↔ s.source = l.source ∧ s.stop = l.start := by
  simp [isFollowedBy]

/-- After the stretch, the source reads the lexeme that follows it. -/
theorem rest_of_isFollowedBy {s : Stretch} {l : Lexeme} (h : s.isFollowedBy l = true) :
    s.rest = l.text ++ l.rest := by
  obtain ⟨hsource, hstop⟩ := isFollowedBy_iff.1 h
  have hrest : l.source.Reads l.start s.rest := by
    rw [← hsource, ← hstop, ← s.start_add_byteLength]
    exact (s.remainder_eq ▸ s.reads).append
  exact hrest.unique l.reads

/-- A lexeme that follows a stretch moves the end of the stretch behind it. -/
theorem cut_append {s : Stretch} {l : Lexeme} (h : s.isFollowedBy l = true) :
    s.remainder = (s.text ++ l.text) ++ l.rest ∧
      s.start + Text.byteLength (s.text ++ l.text) = l.stop := by
  constructor
  · rw [List.append_assoc, ← rest_of_isFollowedBy h]
    exact s.remainder_eq
  · rw [Text.byteLength_append, ← Nat.add_assoc, s.start_add_byteLength, (isFollowedBy_iff.1 h).2]
    rfl

/-- The stretch with the lexeme directly after it. -/
def extend? (s : Stretch) (l : Lexeme) : Option Stretch :=
  if h : s.isFollowedBy l = true then
    some ⟨s.source, s.start, l.stop, s.remainder, l.rest, s.reads, s.text ++ l.text, cut_append h⟩
  else none

/-- The text of a lexeme, as a stretch, is the text of the lexeme. -/
@[simp] theorem text_ofLexeme (l : Lexeme) : (ofLexeme l).text = l.text :=
  text_eq_of_cut _ rfl rfl

/-- An extended stretch says what the stretch and the lexeme say. -/
theorem text_of_extend? {s s' : Stretch} {l : Lexeme} (h : s.extend? l = some s') :
    s'.text = s.text ++ l.text := by
  unfold extend? at h
  split at h
  · next hf =>
    cases h
    exact text_eq_of_cut _ (cut_append hf).1 (cut_append hf).2
  · cases h

end Stretch

/-- The span that covers two lexemes, if the second stands directly after the first. -/
def Lexeme.join? (l m : Lexeme) : Option Lexeme :=
  ((Stretch.ofLexeme l).extend? m).map Stretch.toLexeme

end FlatExpr
