/-!
# Texts

A text is the list of its characters. Positions in a text are byte offsets of its UTF-8 form, so
this module measures texts in bytes and cuts them at byte offsets. A cut is refused where it would
fall inside a character; `splitAt?_eq_some_iff` says exactly when it is accepted.
-/

namespace FlatExpr

/-- A text: its characters in order. -/
abbrev Text := List Char

namespace Text

/-- The number of bytes that a text takes in UTF-8. -/
def byteLength : Text → Nat
  | [] => 0
  | c :: cs => c.utf8Size + byteLength cs

@[simp] theorem byteLength_nil : byteLength [] = 0 := rfl

@[simp] theorem byteLength_cons (c : Char) (cs : Text) :
    byteLength (c :: cs) = c.utf8Size + byteLength cs := rfl

@[simp] theorem byteLength_append (s t : Text) :
    byteLength (s ++ t) = byteLength s + byteLength t := by
  induction s with
  | nil => simp
  | cons c cs ih => simp [ih, Nat.add_assoc]

/-- The text before byte `n` and the text from there on; `none` when byte `n` lies inside a
character or beyond the end. -/
def splitAt? : Text → Nat → Option (Text × Text)
  | t, 0 => some ([], t)
  | [], _ + 1 => none
  | c :: cs, n + 1 =>
    if c.utf8Size ≤ n + 1 then
      (splitAt? cs (n + 1 - c.utf8Size)).map fun p => (c :: p.1, p.2)
    else none

/-- A cut at byte `n` gives the two parts of the text of which the first takes `n` bytes. -/
theorem splitAt?_eq_some_iff (t : Text) (n : Nat) (a b : Text) :
    splitAt? t n = some (a, b) ↔ t = a ++ b ∧ byteLength a = n := by
  fun_induction splitAt? t n generalizing a with
  | case1 t =>
    constructor
    · rintro h
      cases h
      simp
    · rintro ⟨rfl, h⟩
      cases a with
      | nil => simp
      | cons c cs => have := c.utf8Size_pos; simp only [byteLength_cons] at h; omega
  | case2 n =>
    constructor
    · simp
    · rintro ⟨h, hn⟩
      cases a <;> simp_all
  | case3 c cs n hle ih =>
    constructor
    · intro h
      obtain ⟨⟨a', b'⟩, hab, heq⟩ := Option.map_eq_some_iff.1 h
      cases heq
      obtain ⟨rfl, hlen⟩ := (ih _).1 hab
      exact ⟨rfl, by simp only [byteLength_cons]; omega⟩
    · rintro ⟨h, hn⟩
      cases a with
      | nil => simp at hn
      | cons d ds =>
        simp only [List.cons_append, List.cons.injEq] at h
        obtain ⟨rfl, rfl⟩ := h
        have hds : byteLength ds = n + 1 - c.utf8Size := by
          simp only [byteLength_cons] at hn; omega
        simp [(ih ds).2 ⟨rfl, hds⟩]
  | case4 c cs n hlt =>
    constructor
    · simp
    · rintro ⟨h, hn⟩
      cases a with
      | nil => simp at hn
      | cons d ds =>
        simp only [List.cons_append, List.cons.injEq] at h
        obtain ⟨rfl, -⟩ := h
        simp only [byteLength_cons] at hn
        omega

/-- The decimal digits of a number. -/
def ofNat (n : Nat) : Text := Nat.toDigits 10 n

/-- A text between backticks. -/
def ticked (t : Text) : Text := "\x60".toList ++ t ++ "\x60".toList

end Text

end FlatExpr
