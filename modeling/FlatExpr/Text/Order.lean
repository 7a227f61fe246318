import FlatExpr.Text.Basic

/-!
# The order of texts

Texts are ordered by their code points, character by character, a proper beginning first. The order
is strict and total: `precedes_irrefl`, `precedes_trans`, `precedes_total`.
-/

namespace FlatExpr.Text

/-- The order of texts by code points, which is also the order of their UTF-8 bytes. -/
def precedes : Text → Text → Bool
  | _, [] => false
  | [], _ :: _ => true
  | c :: cs, d :: ds => c.toNat < d.toNat || (c == d && precedes cs ds)

/-- The order of texts is transitive. -/
theorem precedes_trans {s t u : Text} (hst : precedes s t = true) (htu : precedes t u = true) :
    precedes s u = true := by
  induction s generalizing t u with
  | nil =>
    cases u with
    | nil => cases t <;> simp [precedes] at htu
    | cons => rfl
  | cons c cs ih =>
    cases t with
    | nil => simp [precedes] at hst
    | cons d ds =>
      cases u with
      | nil => simp [precedes] at htu
      | cons e es =>
        simp only [precedes, Bool.or_eq_true, decide_eq_true_eq, Bool.and_eq_true,
          beq_iff_eq] at hst htu ⊢
        rcases hst with hcd | ⟨rfl, hst⟩
        · rcases htu with hde | ⟨rfl, -⟩
          · exact .inl (Nat.lt_trans hcd hde)
          · exact .inl hcd
        · rcases htu with hde | ⟨rfl, htu⟩
          · exact .inl hde
          · exact .inr ⟨rfl, ih hst htu⟩

/-- Of two texts one comes first, or they are equal. -/
theorem precedes_total (s t : Text) :
    precedes s t = true ∨ s = t ∨ precedes t s = true := by
  induction s generalizing t with
  | nil => cases t <;> simp [precedes]
  | cons c cs ih =>
    cases t with
    | nil => simp [precedes]
    | cons d ds =>
      rcases Nat.lt_trichotomy c.toNat d.toNat with h | h | h
      · simp [precedes, h]
      · have hcd : c = d := Char.toNat_inj.1 h
        subst hcd
        rcases ih ds with h | h | h <;> simp [precedes, h]
      · simp [precedes, h]

/-- No text comes before itself. -/
theorem precedes_irrefl (s : Text) : precedes s s = false := by
  induction s with
  | nil => rfl
  | cons c cs ih => simp [precedes, ih]

end FlatExpr.Text
