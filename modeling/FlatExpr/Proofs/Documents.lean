import Mathlib.Data.List.TakeWhile
import FlatExpr.Json.Printer
import FlatExpr.Json.Reader

/-!
# Written documents are read back

A document that is made of texts, lists and records is read back from what is written for it, with
any white space between its parts (`Json.Textual.parse?_write`). The lemmas are about a document in
front of an arbitrary rest of the text, so that they can be used for the parts of a document one
after the other. Reading is bounded by the length of the text; a text is longer than the document in
it is nested (`Json.nesting_add_length_le`).
-/

namespace FlatExpr.Json

/-! ## Strings -/

/-- A letter after a backslash is read as the character that it stands for. -/
theorem pieces_short {e c : Char} (h : shortEscape? e = some c) (r : Text) :
    pieces ('\\' :: e :: r) = (pieces r).map fun q => (.char c :: q.1, q.2) := by
  have hu : e ≠ 'u' := by
    rintro rfl
    cases h
  rw [pieces.eq_4 e r fun _ _ _ _ _ he _ => hu he, h]
  cases pieces r <;> rfl

/-- A character that needs no backslash is read as it is. -/
theorem pieces_plain {c : Char} (hquote : c ≠ '"') (hslash : c ≠ '\\') (hcontrol : ¬ c.toNat < 32)
    (r : Text) : pieces (c :: r) = (pieces r).map fun q => (.char c :: q.1, q.2) := by
  rw [pieces.eq_5 c r hquote (fun _ _ _ _ _ hc _ => hslash hc) (fun _ _ hc _ => hslash hc),
    if_neg hcontrol]
  cases pieces r <;> rfl

/-- Two hexadecimal digits are read as the control character that they were written for. -/
theorem hex4?_control {n : Nat} (h : n < 32) :
    hex4? '0' '0' (hexDigit (n / 16)) (hexDigit n) = some n := by
  have htable : ∀ n < 32, hex4? '0' '0' (hexDigit (n / 16)) (hexDigit n) = some n := by decide
  exact htable n h

/-- Four hexadecimal digits after a backslash are read as the unit that they denote. -/
theorem pieces_unit {a b c d : Char} {n : Nat} (h : hex4? a b c d = some n) (r : Text) :
    pieces ('\\' :: 'u' :: a :: b :: c :: d :: r) =
      (pieces r).map fun q => (.unit n :: q.1, q.2) := by
  rw [pieces.eq_3, h]
  cases pieces r <;> rfl

/-- A unit that is no half of a surrogate pair denotes its character. -/
theorem denoted_unit {n : Nat} (h : n < 32) (ps : List Piece) :
    denoted (.unit n :: ps) = (denoted ps).map (Char.ofNat n :: ·) := by
  have hhigh : isHighHalf n = false := by
    simp [isHighHalf]
    omega
  have hlow : isLowHalf n = false := by
    simp [isLowHalf]
    omega
  rw [denoted.eq_def]
  simp [hhigh, hlow]

/-- What is written for a character in a string is read as one piece, which denotes the
character. -/
theorem pieces_escape (c : Char) (r : Text) :
    ∃ p, pieces (escape c ++ r) = (pieces r).map (fun q => (p :: q.1, q.2)) ∧
      ∀ ps, denoted (p :: ps) = (denoted ps).map (c :: ·) := by
  unfold escape
  split_ifs with hquote hslash hb ht hn hf hr hcontrol
  · exact ⟨.char c, pieces_short (hquote ▸ rfl) r, fun ps => rfl⟩
  · exact ⟨.char c, pieces_short (hslash ▸ rfl) r, fun ps => rfl⟩
  · exact ⟨.char c, pieces_short (hb ▸ rfl) r, fun ps => rfl⟩
  · exact ⟨.char c, pieces_short (ht ▸ rfl) r, fun ps => rfl⟩
  · exact ⟨.char c, pieces_short (hn ▸ rfl) r, fun ps => rfl⟩
  · exact ⟨.char c, pieces_short (hf ▸ rfl) r, fun ps => rfl⟩
  · exact ⟨.char c, pieces_short (hr ▸ rfl) r, fun ps => rfl⟩
  · refine ⟨.unit c.toNat, pieces_unit (hex4?_control hcontrol) r, fun ps => ?_⟩
    rw [denoted_unit hcontrol, Char.ofNat_toNat]
  · exact ⟨.char c, pieces_plain hquote hslash hcontrol r, fun ps => rfl⟩

/-- What is written for a text in a string is read as that text. -/
theorem content_escape (t r : Text) :
    content (t.flatMap escape ++ '"' :: r) = some (some t, r) := by
  have hpieces : ∃ ps, pieces (t.flatMap escape ++ '"' :: r) = some (ps, r) ∧
      denoted ps = some t := by
    induction t with
    | nil => exact ⟨[], rfl, rfl⟩
    | cons c t ih =>
      obtain ⟨ps, hps, hdenoted⟩ := ih
      obtain ⟨p, hp, hc⟩ := pieces_escape c (t.flatMap escape ++ '"' :: r)
      refine ⟨p :: ps, ?_, ?_⟩
      · rw [List.flatMap_cons, List.append_assoc, hp, hps]
        rfl
      · rw [hc, hdenoted]
        rfl
  obtain ⟨ps, hps, hdenoted⟩ := hpieces
  simp [content, hps, hdenoted]

/-- A text is read back from what is written for it. -/
theorem content_quote (t r : Text) :
    ∃ body, quote t ++ r = '"' :: body ∧ content body = some (some t, r) :=
  ⟨t.flatMap escape ++ '"' :: r, by simp [quote], content_escape t r⟩

/-! ## White space -/

/-- Between the parts of a document there is white space only, but for the colon of a field. -/
structure Spacing.Blank (spacing : Spacing) : Prop where
  /-- A new line is white space. -/
  line : ∀ level, ∀ c ∈ spacing.line level, isSpace c
  /-- After the colon is white space. -/
  colon : ∃ gap, spacing.colon = ':' :: gap ∧ ∀ c ∈ gap, isSpace c

/-- Lines for every item have white space between the parts. -/
theorem Spacing.blank_lines : Spacing.lines.Blank where
  line level c hc := by
    simp only [Spacing.lines, List.mem_append, List.mem_replicate] at hc
    rcases hc with hc | ⟨-, rfl⟩
    · obtain rfl : c = '\n' := by simpa using hc
      rfl
    · rfl
  colon := ⟨[' '], rfl, by simp [isSpace]⟩

/-- White space is skipped as a whole. -/
theorem skipSpace_append {gap : Text} (h : ∀ c ∈ gap, isSpace c) (t : Text) :
    skipSpace (gap ++ t) = skipSpace t :=
  List.dropWhile_append_of_pos h

/-- Nothing is skipped before a character that is not white space. -/
theorem skipSpace_cons {c : Char} (h : isSpace c = false) (t : Text) :
    skipSpace (c :: t) = c :: t := by
  simp [skipSpace, h]

/-- White space before a document does not matter. -/
theorem value_append {gap : Text} (h : ∀ c ∈ gap, isSpace c) (levels : Nat) (t : Text) :
    value levels (gap ++ t) = value levels t := by
  rw [value.eq_def, value.eq_def levels t]
  dsimp only
  rw [skipSpace_append h]

/-- White space before the first item does not matter. -/
theorem itemsWith_append {gap : Text} (h : ∀ c ∈ gap, isSpace c) (levels n : Nat) (t : Text) :
    itemsWith (value levels) n (gap ++ t) = itemsWith (value levels) n t := by
  cases n with
  | zero => rfl
  | succ n => rw [itemsWith.eq_2, itemsWith.eq_2, value_append h]

/-- White space before the name of a field does not matter. -/
theorem fieldsWith_append {gap : Text} (h : ∀ c ∈ gap, isSpace c) (read : Reader Json) (n : Nat)
    (t : Text) : fieldsWith read n (gap ++ t) = fieldsWith read n t := by
  cases n with
  | zero => rfl
  | succ n => rw [fieldsWith.eq_2, fieldsWith.eq_2, skipSpace_append h]

/-! ## Documents of texts -/

/-- A document that is made of texts, lists and records. -/
inductive Textual : Json → Prop
  /-- A text. -/
  | text (t : Text) : Textual (.text t)
  /-- A list. -/
  | array {items : List Json} (items_textual : ∀ j ∈ items, Textual j) : Textual (.array items)
  /-- A record, whose names are texts. -/
  | object {fields : List (Option Text × Json)} (names : ∀ f ∈ fields, f.1.isSome)
      (values_textual : ∀ f ∈ fields, Textual f.2) : Textual (.object fields)

section

variable {spacing : Spacing}

/-- What is written for a document does not start with a closing bracket. -/
theorem Textual.skipSpace_write_ne {j : Json} (h : j.Textual) (level : Nat) (tail r : Text) :
    skipSpace (write spacing level j tail) ≠ ']' :: r := by
  cases h with
  | text t => exact nofun
  | @array items _ => cases items <;> exact nofun
  | @object fields _ _ => cases fields <;> exact nofun

/-- What is written for a list that is not empty. -/
theorem write_array_cons (level : Nat) (j : Json) (js : List Json) (tail : Text) :
    write spacing level (.array (j :: js)) tail =
      '[' :: (spacing.line (level + 1) ++ write spacing (level + 1) j
        (writeItems spacing (level + 1) js (spacing.line level ++ ']' :: tail))) :=
  rfl

/-- What is written for a record that is not empty. -/
theorem write_object_cons (level : Nat) (t : Text) (j : Json) (fs : List (Option Text × Json))
    (tail : Text) :
    write spacing level (.object ((some t, j) :: fs)) tail =
      '\x7b' :: (spacing.line (level + 1) ++ (quote t ++ (spacing.colon ++
        write spacing (level + 1) j
          (writeFields spacing (level + 1) fs (spacing.line level ++ '\x7d' :: tail))))) :=
  rfl

/-! ### The length of a text bounds how deeply the document in it is nested -/

mutual

/-- A document is written with a character for each level. -/
theorem nesting_add_length_le (spacing : Spacing) (level : Nat) : ∀ (j : Json) (tail : Text),
    nesting j + tail.length ≤ (write spacing level j tail).length
  | .null, tail | .bool true, tail | .bool false, tail => by
    simp only [nesting, write, List.length_append]
    omega
  | .number n, tail => by
    simp only [nesting, write, List.length_append]
    omega
  | .string content, tail => by
    simp only [nesting, write, List.length_append]
    omega
  | .array [], tail => by
    have hbrackets : "[]".toList.length = 2 := rfl
    simp only [nesting, itemsNesting, write, List.length_append]
    omega
  | .array (j :: js), tail => by
    -- the opening bracket pays for the level of the list
    have hbrackets : "[".toList.length = 1 ∧ "]".toList.length = 1 := ⟨rfl, rfl⟩
    have hjs := itemsNesting_add_length_le spacing (level + 1) js
      (spacing.line level ++ ("]".toList ++ tail))
    have hj := nesting_add_length_le spacing (level + 1) j
      (writeItems spacing (level + 1) js (spacing.line level ++ ("]".toList ++ tail)))
    simp only [nesting, itemsNesting, write, List.length_append] at hj hjs ⊢
    omega
  | .object [], tail => by
    have hbrackets : "\x7b\x7d".toList.length = 2 := rfl
    simp only [nesting, fieldsNesting, write, List.length_append]
    omega
  | .object ((name, j) :: fs), tail => by
    have hbrackets : "\x7b".toList.length = 1 ∧ "\x7d".toList.length = 1 := ⟨rfl, rfl⟩
    have hfs := fieldsNesting_add_length_le spacing (level + 1) fs
      (spacing.line level ++ ("\x7d".toList ++ tail))
    have hj := nesting_add_length_le spacing (level + 1) j
      (writeFields spacing (level + 1) fs (spacing.line level ++ ("\x7d".toList ++ tail)))
    simp only [nesting, fieldsNesting, write, List.length_append] at hj hfs ⊢
    omega

/-- Further items are written with a character for each level and each item. -/
theorem itemsNesting_add_length_le (spacing : Spacing) (level : Nat) :
    ∀ (js : List Json) (tail : Text),
    itemsNesting js + js.length + tail.length ≤ (writeItems spacing level js tail).length
  | [], tail => by simp [itemsNesting, writeItems]
  | j :: js, tail => by
    have hcomma : ",".toList.length = 1 := rfl
    have hj := nesting_add_length_le spacing level j (writeItems spacing level js tail)
    have hjs := itemsNesting_add_length_le spacing level js tail
    simp only [itemsNesting, writeItems, List.length_append, List.length_cons] at hj hjs ⊢
    omega

/-- Further fields are written with a character for each level and each field. -/
theorem fieldsNesting_add_length_le (spacing : Spacing) (level : Nat) :
    ∀ (fs : List (Option Text × Json)) (tail : Text),
    fieldsNesting fs + fs.length + tail.length ≤ (writeFields spacing level fs tail).length
  | [], tail => by simp [fieldsNesting, writeFields]
  | (name, j) :: fs, tail => by
    have hcomma : ",".toList.length = 1 := rfl
    have hj := nesting_add_length_le spacing level j (writeFields spacing level fs tail)
    have hfs := fieldsNesting_add_length_le spacing level fs tail
    simp only [fieldsNesting, writeFields, List.length_append, List.length_cons] at hj hfs ⊢
    omega

end

/-! ### Items and fields -/

/-- The last item of a list. -/
theorem itemsWith_last {read : Reader Json} {t r tail : Text} {j : Json} (n : Nat)
    (hread : read t = some (j, r)) (hclose : skipSpace r = ']' :: tail) :
    itemsWith read (n + 1) t = some ([j], tail) := by
  rw [itemsWith.eq_2, hread]
  simp only [Option.bind_eq_bind, Option.bind_some, hclose]
  rfl

/-- An item before another one. -/
theorem itemsWith_more {read : Reader Json} {t r t' : Text} {j : Json} (n : Nat)
    (hread : read t = some (j, r)) (hcomma : skipSpace r = ',' :: t') :
    itemsWith read (n + 1) t = (itemsWith read n t').map fun p => (j :: p.1, p.2) := by
  rw [itemsWith.eq_2, hread]
  simp only [Option.bind_eq_bind, Option.bind_some, hcomma]
  cases itemsWith read n t' <;> rfl

/-- The last field of a record. -/
theorem fieldsWith_last {read : Reader Json} {rest r tail : Text} {j : Json} (t : Text) (n : Nat)
    (hread : read rest = some (j, r)) (hclose : skipSpace r = '\x7d' :: tail) :
    fieldsWith read (n + 1) (quote t ++ ':' :: rest) = some ([(some t, j)], tail) := by
  obtain ⟨body, hbody, hname⟩ := content_quote t (':' :: rest)
  rw [fieldsWith.eq_2, hbody, skipSpace_cons rfl]
  simp only [Option.bind_eq_bind, hname, Option.bind_some, skipSpace_cons (c := ':') rfl, hread,
    hclose]
  rfl

/-- A field before another one. -/
theorem fieldsWith_more {read : Reader Json} {rest r t' : Text} {j : Json} (t : Text) (n : Nat)
    (hread : read rest = some (j, r)) (hcomma : skipSpace r = ',' :: t') :
    fieldsWith read (n + 1) (quote t ++ ':' :: rest) =
      (fieldsWith read n t').map fun p => ((some t, j) :: p.1, p.2) := by
  obtain ⟨body, hbody, hname⟩ := content_quote t (':' :: rest)
  rw [fieldsWith.eq_2, hbody, skipSpace_cons rfl]
  simp only [Option.bind_eq_bind, hname, Option.bind_some, skipSpace_cons (c := ':') rfl, hread,
    hcomma]
  cases fieldsWith read n t' <;> rfl

variable {levels level : Nat}

/-- Items that are read back one by one are read back as a list, up to the closing bracket. -/
theorem itemsWith_write (hblank : spacing.Blank) {j : Json} {js : List Json}
    (hread : ∀ i ∈ j :: js, ∀ tail, value levels (write spacing level i tail) = some (i, tail))
    {gap : Text} (hgap : ∀ c ∈ gap, isSpace c) (tail : Text) {n : Nat} (hn : js.length < n) :
    itemsWith (value levels) n
        (write spacing level j (writeItems spacing level js (gap ++ ']' :: tail))) =
      some (j :: js, tail) := by
  -- the first item is read with one unit of the bound, and the second takes its place
  induction js generalizing j n with
  | nil =>
    obtain ⟨n, rfl⟩ := Nat.exists_eq_add_one.2 hn
    refine itemsWith_last n (hread j (by simp) _) ?_
    rw [writeItems, skipSpace_append hgap, skipSpace_cons rfl]
  | cons i is ih =>
    obtain ⟨n, rfl⟩ := Nat.exists_eq_add_one.2 (Nat.zero_lt_of_lt hn)
    have hcomma : skipSpace (writeItems spacing level (i :: is) (gap ++ ']' :: tail)) =
        ',' :: (spacing.line level ++ write spacing level i
          (writeItems spacing level is (gap ++ ']' :: tail))) := skipSpace_cons rfl _
    rw [itemsWith_more n (hread j (by simp) _) hcomma, itemsWith_append (hblank.line level),
      ih (fun k hk => hread k (List.mem_cons_of_mem j hk)) (Nat.lt_of_succ_lt_succ hn)]
    rfl

/-- Fields whose values are read back one by one are read back as a record, up to the closing
brace. -/
theorem fieldsWith_write (hblank : spacing.Blank) {t : Text} {j : Json}
    {fs : List (Option Text × Json)} (hnames : ∀ f ∈ fs, f.1.isSome)
    (hread : ∀ f ∈ (some t, j) :: fs, ∀ tail,
      value levels (write spacing level f.2 tail) = some (f.2, tail))
    {gap : Text} (hgap : ∀ c ∈ gap, isSpace c) (tail : Text) {n : Nat} (hn : fs.length < n) :
    fieldsWith (value levels) n (quote t ++ (spacing.colon ++
        write spacing level j (writeFields spacing level fs (gap ++ '\x7d' :: tail)))) =
      some ((some t, j) :: fs, tail) := by
  obtain ⟨space, hcolon, hspace⟩ := hblank.colon
  have hvalue : ∀ tail, value levels (space ++ write spacing level j tail) = some (j, tail) :=
    fun tail => (value_append hspace levels _).trans (hread (some t, j) (by simp) tail)
  induction fs generalizing t j n with
  | nil =>
    obtain ⟨n, rfl⟩ := Nat.exists_eq_add_one.2 hn
    rw [hcolon]
    refine fieldsWith_last t n (hvalue _) ?_
    rw [writeFields, skipSpace_append hgap, skipSpace_cons rfl]
  | cons f fs ih =>
    obtain ⟨n, rfl⟩ := Nat.exists_eq_add_one.2 (Nat.zero_lt_of_lt hn)
    obtain ⟨name, i⟩ := f
    obtain ⟨u, rfl⟩ := Option.isSome_iff_exists.1 (hnames (name, i) (by simp))
    have hcomma : skipSpace (writeFields spacing level ((some u, i) :: fs)
          (gap ++ '\x7d' :: tail)) =
        ',' :: (spacing.line level ++ (quote u ++ (spacing.colon ++ write spacing level i
          (writeFields spacing level fs (gap ++ '\x7d' :: tail))))) := skipSpace_cons rfl _
    have hrest := fun k hk => hread k (List.mem_cons_of_mem _ hk)
    have hfs := ih (fun k hk => hnames k (List.mem_cons_of_mem _ hk)) hrest
      (Nat.lt_of_succ_lt_succ hn) fun tail => (value_append hspace levels _).trans
        (hrest (some u, i) (by simp) tail)
    calc fieldsWith (value levels) (n + 1) (quote t ++ (spacing.colon ++ write spacing level j _))
        = (fieldsWith (value levels) n _).map fun p => ((some t, j) :: p.1, p.2) := by
          rw [hcolon]
          exact fieldsWith_more t n (hvalue _) hcomma
      _ = some ((some t, j) :: (some u, i) :: fs, tail) := by
          rw [fieldsWith_append (hblank.line level), hfs]
          rfl

/-! ### Documents -/

/-- A list is read from its items, if its text does not go on with the closing bracket. -/
theorem arrayWith_of_items {read : Reader Json} {t tail : Text} {items : List Json}
    (hitems : itemsWith read t.length t = some (items, tail))
    (hopen : ∀ r, skipSpace t ≠ ']' :: r) : arrayWith read t = some (.array items, tail) := by
  unfold arrayWith
  split
  · next r h => exact absurd h (hopen r)
  · rw [hitems]
    rfl

/-- A record is read from its fields, if its text does not go on with the closing brace. -/
theorem objectWith_of_fields {read : Reader Json} {t tail : Text}
    {fields : List (Option Text × Json)}
    (hfields : fieldsWith read t.length t = some (fields, tail))
    (hopen : ∀ r, skipSpace t ≠ '\x7d' :: r) :
    objectWith read t = some (.object fields, tail) := by
  unfold objectWith
  split
  · next r h => exact absurd h (hopen r)
  · rw [hfields]
    rfl

/-- No item is nested more deeply than the deepest one. -/
theorem nesting_le_itemsNesting {j : Json} {js : List Json} (h : j ∈ js) :
    nesting j ≤ itemsNesting js := by
  induction js with
  | nil => cases h
  | cons i is ih => grind [itemsNesting]

/-- No value of a field is nested more deeply than the deepest one. -/
theorem nesting_le_fieldsNesting {f : Option Text × Json} {fs : List (Option Text × Json)}
    (h : f ∈ fs) : nesting f.2 ≤ fieldsNesting fs := by
  induction fs with
  | nil => cases h
  | cons g gs ih =>
    obtain ⟨name, i⟩ := g
    grind [fieldsNesting]

/-- A quotation mark starts a string. -/
theorem value_quote (levels : Nat) (t : Text) :
    value levels ('"' :: t) = (content t).map fun p => (.string p.1, p.2) := by
  rw [value.eq_def]
  rfl

/-- An opening bracket starts a list. -/
theorem value_bracket (levels : Nat) (t : Text) :
    value (levels + 1) ('[' :: t) = arrayWith (value levels) t := by
  rw [value.eq_def]
  rfl

/-- An opening brace starts a record. -/
theorem value_brace (levels : Nat) (t : Text) :
    value (levels + 1) ('\x7b' :: t) = objectWith (value levels) t := by
  rw [value.eq_def]
  rfl

/-- A list of documents that are read back one by one is read back. -/
theorem value_write_array (hblank : spacing.Blank) {items : List Json}
    (htextual : ∀ j ∈ items, j.Textual) (level : Nat)
    (hread : ∀ j ∈ items, ∀ tail,
      value levels (write spacing (level + 1) j tail) = some (j, tail)) (tail : Text) :
    value (levels + 1) (write spacing level (.array items) tail) = some (.array items, tail) := by
  cases items with
  | nil => exact value_bracket levels (']' :: tail)
  | cons j js =>
    rw [write_array_cons, value_bracket]
    apply arrayWith_of_items
    · -- the text is longer than the number of items, so that the bound on them holds
      rw [itemsWith_append (hblank.line _)]
      refine itemsWith_write hblank hread (hblank.line level) tail ?_
      have hjs := itemsNesting_add_length_le spacing (level + 1) js
        (spacing.line level ++ ']' :: tail)
      have hj := nesting_add_length_le spacing (level + 1) j
        (writeItems spacing (level + 1) js (spacing.line level ++ ']' :: tail))
      simp only [List.length_append, List.length_cons] at hj hjs ⊢
      omega
    · intro r
      rw [skipSpace_append (hblank.line _)]
      exact (htextual j (by simp)).skipSpace_write_ne _ _ r

/-- A record of documents that are read back one by one is read back. -/
theorem value_write_object (hblank : spacing.Blank) {fields : List (Option Text × Json)}
    (hnames : ∀ f ∈ fields, f.1.isSome) (level : Nat)
    (hread : ∀ f ∈ fields, ∀ tail,
      value levels (write spacing (level + 1) f.2 tail) = some (f.2, tail)) (tail : Text) :
    value (levels + 1) (write spacing level (.object fields) tail) =
      some (.object fields, tail) := by
  cases fields with
  | nil => exact value_brace levels ('\x7d' :: tail)
  | cons f fs =>
    obtain ⟨name, j⟩ := f
    obtain ⟨t, rfl⟩ := Option.isSome_iff_exists.1 (hnames (name, j) (by simp))
    rw [write_object_cons, value_brace]
    apply objectWith_of_fields
    · rw [fieldsWith_append (hblank.line _)]
      refine fieldsWith_write hblank (fun f hf => hnames f (List.mem_cons_of_mem _ hf)) hread
        (hblank.line level) tail ?_
      have hfs := fieldsNesting_add_length_le spacing (level + 1) fs
        (spacing.line level ++ '\x7d' :: tail)
      have hj := nesting_add_length_le spacing (level + 1) j
        (writeFields spacing (level + 1) fs (spacing.line level ++ '\x7d' :: tail))
      simp only [List.length_append, List.length_cons] at hj hfs ⊢
      omega
    · intro r
      rw [skipSpace_append (hblank.line _)]
      exact nofun

/-- A document of texts is read back from what is written for it, when it may be nested as deeply as
it is. -/
theorem Textual.value_write (hblank : spacing.Blank) {j : Json} (h : j.Textual) (level : Nat)
    {levels : Nat} (hlevels : nesting j ≤ levels) (tail : Text) :
    value levels (write spacing level j tail) = some (j, tail) := by
  -- a list and a record take one of the levels, and leave the others to what is in them
  induction h generalizing level levels tail with
  | text t =>
    obtain ⟨body, hbody, hcontent⟩ := content_quote t tail
    calc value levels (quote t ++ tail)
        = (content body).map fun p => (.string p.1, p.2) := by rw [hbody, value_quote]
      _ = some (.text t, tail) := by
        rw [hcontent]
        rfl
  | @array items htextual ih =>
    rw [nesting] at hlevels
    obtain ⟨levels, rfl⟩ := Nat.exists_eq_add_one.2 (Nat.zero_lt_of_lt hlevels)
    refine value_write_array hblank htextual level (fun j hj => ih j hj (level + 1) ?_) tail
    exact (nesting_le_itemsNesting hj).trans (Nat.le_of_succ_le_succ hlevels)
  | @object fields hnames htextual ih =>
    rw [nesting] at hlevels
    obtain ⟨levels, rfl⟩ := Nat.exists_eq_add_one.2 (Nat.zero_lt_of_lt hlevels)
    refine value_write_object hblank hnames level (fun f hf => ih f hf (level + 1) ?_) tail
    exact (nesting_le_fieldsNesting hf).trans (Nat.le_of_succ_le_succ hlevels)

/-- A document of texts is read back from what is written for it. -/
theorem Textual.parse?_write (hblank : spacing.Blank) {j : Json} (h : j.Textual) (level : Nat) :
    parse? (write spacing level j []) = some j := by
  have hlevels : nesting j ≤ (write spacing level j []).length := by
    simpa using nesting_add_length_le spacing level j []
  unfold parse? parseWithin?
  rw [h.value_write hblank level hlevels []]
  rfl

end

end FlatExpr.Json
