import FlatExpr.CharKind
import FlatExpr.Source.Basic

/-!
# Lexemes

A lexeme is a span of a source: where it starts, what it says and what follows it. So it is given by
its source and the two places where it starts and stops (`Lexeme.ofSpan?_eq_some_iff`). An empty
lexeme is a *terminal*: it marks a position, usually the end of the source. Two lexemes count as
equal when they say the same, wherever they stand (`Lexeme.sameText`).
-/

namespace FlatExpr

/-- A span of a source. -/
structure Lexeme where
  /-- The source. -/
  source : Source
  /-- The byte offset of its first character. -/
  start : Nat
  /-- The characters of the span. -/
  text : Text
  /-- The characters of the source after the span. -/
  rest : Text
  /-- The source reads so from the start of the span on. -/
  reads : source.Reads start (text ++ rest)
  deriving DecidableEq

namespace Lexeme

/-- The byte offset just after the span. -/
def stop (l : Lexeme) : Nat := l.start + Text.byteLength l.text

/-- The source from the start of the span to its end. -/
def remainder (l : Lexeme) : Text := l.text ++ l.rest

/-- After the span, the source reads what follows it. -/
theorem reads_stop (l : Lexeme) : l.source.Reads l.stop l.rest := l.reads.append

/-- The span that is a whole source. -/
def ofText (source : Source) : Lexeme :=
  ⟨source, 0, source.text, [], by rw [List.append_nil]; exact source.reads_zero⟩

/-- The span from byte `start` to byte `stop` of a source; `none` when these are out of order,
beyond the end, or inside a character. -/
def ofSpan? (source : Source) (start stop : Nat) : Option Lexeme :=
  if start ≤ stop then do
    let ⟨(passed, tail), htail⟩ ← (Text.splitAt? source.text start).attach
    let ⟨(text, rest), htext⟩ ← (Text.splitAt? tail (stop - start)).attach
    return ⟨source, start, text, rest, Source.reads_iff.2
      ⟨passed, ((Text.splitAt?_eq_some_iff _ _ _ _).1 htext).1 ▸ htail⟩⟩
  else none

/-- The terminal at a byte offset, which is taken as the end of the source when it lies beyond;
`none` inside a character. -/
def terminalAt? (source : Source) (offset : Nat) : Option Lexeme :=
  let offset := min offset (Text.byteLength source.text)
  (Text.splitAt? source.text offset).attach.map fun ⟨(passed, tail), htail⟩ =>
    ⟨source, offset, [], tail, Source.reads_iff.2 ⟨passed, htail⟩⟩

/-- The terminal at the end of a source. -/
def endOf (source : Source) : Lexeme :=
  ⟨source, Text.byteLength source.text, [], [], source.reads_end⟩

/-- The terminal just after a span. -/
def terminalAfter (l : Lexeme) : Lexeme := ⟨l.source, l.stop, [], l.rest, l.reads_stop⟩

/-- Spans of one source with the same ends are equal. -/
theorem ext_span {l m : Lexeme} (hsource : l.source = m.source) (hstart : l.start = m.start)
    (hstop : l.stop = m.stop) : l = m := by
  obtain ⟨source, start, text, rest, reads⟩ := l
  obtain ⟨source', start', text', rest', reads'⟩ := m
  obtain rfl : source = source' := hsource
  obtain rfl : start = start' := hstart
  have hbytes : Text.byteLength text = Text.byteLength text' := Nat.add_left_cancel hstop
  -- one text is cut twice after the same number of bytes
  have hcut : Text.splitAt? (text ++ rest) (Text.byteLength text) = some (text, rest) :=
    (Text.splitAt?_eq_some_iff _ _ _ _).2 ⟨rfl, rfl⟩
  have hcut' : Text.splitAt? (text ++ rest) (Text.byteLength text) = some (text', rest') :=
    (Text.splitAt?_eq_some_iff _ _ _ _).2 ⟨reads.unique reads', hbytes.symm⟩
  rw [hcut, Option.some.injEq, Prod.mk.injEq] at hcut'
  obtain ⟨rfl, rfl⟩ := hcut'
  rfl

/-- A span is found by its source and its two ends, and by nothing else. -/
theorem ofSpan?_eq_some_iff {source : Source} {start stop : Nat} {l : Lexeme} :
    ofSpan? source start stop = some l ↔
      l.source = source ∧ l.start = start ∧ l.stop = stop := by
  constructor
  · intro h
    unfold ofSpan? at h
    split at h
    · next hle =>
      obtain ⟨⟨⟨passed, tail⟩, htail⟩, -, h⟩ := Option.bind_eq_some_iff.1 h
      obtain ⟨⟨⟨text, rest⟩, htext⟩, -, h⟩ := Option.bind_eq_some_iff.1 h
      obtain rfl := Option.some.inj h
      have hbytes := ((Text.splitAt?_eq_some_iff _ _ _ _).1 htext).2
      refine ⟨rfl, rfl, ?_⟩
      show start + Text.byteLength text = stop
      omega
    · cases h
  · rintro ⟨rfl, rfl, rfl⟩
    obtain ⟨passed, htail⟩ := Source.reads_iff.1 l.reads
    have hbytes : l.stop - l.start = Text.byteLength l.text := Nat.add_sub_cancel_left ..
    have htext : Text.splitAt? (l.text ++ l.rest) (l.stop - l.start) = some (l.text, l.rest) :=
      (Text.splitAt?_eq_some_iff _ _ _ _).2 ⟨rfl, hbytes.symm⟩
    have hle : l.start ≤ l.stop := Nat.le_add_right _ _
    unfold ofSpan?
    rw [if_pos hle]
    refine Option.bind_eq_some_iff.2 ⟨⟨(passed, _), htail⟩, by simp [htail], ?_⟩
    exact Option.bind_eq_some_iff.2 ⟨⟨(l.text, l.rest), htext⟩, by simp [htext], rfl⟩

/-- Whether the lexeme is a terminal. -/
def isTerminal (l : Lexeme) : Bool := l.text.isEmpty

/-- Whether the lexeme is not empty and holds white space only. -/
def isWhitespace (l : Lexeme) : Bool := !l.text.isEmpty && l.text.all Text.isWhite

/-- Whether two lexemes say the same. -/
def sameText (l m : Lexeme) : Bool := l.text == m.text

/-- The text between backticks. -/
def display (l : Lexeme) : Text := Text.ticked l.text

/-- The text between backticks and the offset where it starts. -/
def describe (l : Lexeme) : Text := l.display ++ "@".toList ++ Text.ofNat l.start

/-! ## Splitting a source into lexemes -/

/-- Whether two neighbouring characters belong to one lexeme. -/
def together (x y : Char) : Bool := !(CharKind.of y).startsAfter (CharKind.of x)

/-- The texts of the lexemes of a source: it is cut exactly where the boundary rule says so. -/
def texts (source : Text) : List Text := source.splitBy together

/-- Consecutive spans of a source, as long as the texts of a list. From byte `start` on, the source
reads `unread`. -/
def spans (source : Source) (start : Nat) (unread : Text) (h : source.Reads start unread) :
    List Text → List Lexeme
  | [] => []
  | t :: ts =>
    let l : Lexeme := ⟨source, start, unread.take t.length, unread.drop t.length,
      (List.take_append_drop t.length unread).symm ▸ h⟩
    l :: spans source l.stop l.rest l.reads_stop ts

/-- The lexemes of a source, in order. -/
def all (source : Text) : List Lexeme :=
  spans source 0 source (Source.reads_zero source) (texts source)

/-! ## Shapes of words -/

/-- Whether a character may start an identifier. -/
def startsIdentifier (c : Char) : Bool := c.isAlpha || c == '_' || c == '$'

/-- Whether a text is an identifier: an ASCII letter, `_` or `$`, then any number of these and
of ASCII digits. -/
def isIdentifierText : Text → Bool
  | [] => false
  | c :: cs => startsIdentifier c && cs.all fun d => startsIdentifier d || d.isDigit

/-- Whether a text is a numeric: an ASCII digit, then any number of ASCII letters, digits and
`_`. -/
def isNumericText : Text → Bool
  | [] => false
  | c :: cs => c.isDigit && cs.all fun d => d.isAlphanum || d == '_'

/-- Whether the lexeme has the shape of an identifier. -/
def isIdentifier (l : Lexeme) : Bool := isIdentifierText l.text

/-- Whether the lexeme has the shape of a numeric. -/
def isNumeric (l : Lexeme) : Bool := isNumericText l.text

end Lexeme

end FlatExpr
