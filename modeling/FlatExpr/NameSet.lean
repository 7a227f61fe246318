import FlatExpr.Named
import FlatExpr.Text.Order

/-!
# Sets of named values

A finite set is kept as the list of its members in ascending order of their names. The order makes
the list unique, so sets with the same members are equal (`NameSet.ext_mem`), and it is the order
in which a set is written out.
-/

namespace FlatExpr

/-- The values of `l` have ascending names, hence no value occurs twice. -/
def Ascending {α : Type} [Named α] (l : List α) : Prop :=
  l.Pairwise fun a b => Text.precedes (Named.name a) (Named.name b) = true

/-- A finite set of named values. -/
structure NameSet (α : Type) [Named α] where
  /-- The members, by ascending name. -/
  members : List α
  /-- The members are in order. -/
  ascending : Ascending members

namespace NameSet

variable {α : Type} [Named α]

instance [DecidableEq α] : DecidableEq (NameSet α) := fun s t =>
  if h : s.members = t.members then
    isTrue (by cases s; cases t; simp_all)
  else
    isFalse fun e => h (e ▸ rfl)

/-- Whether a value is a member. -/
def contains [DecidableEq α] (s : NameSet α) (a : α) : Bool := s.members.contains a

/-- The list `l` with `a` put at its place, unless it is there already. -/
def insertInto (a : α) : List α → List α
  | [] => [a]
  | b :: bs =>
    if Text.precedes (Named.name a) (Named.name b) then a :: b :: bs
    else if Named.name a == Named.name b then b :: bs
    else b :: insertInto a bs

/-- Putting a value into a list adds that value and nothing else. -/
theorem mem_insertInto (a x : α) (l : List α) : x ∈ insertInto a l ↔ x = a ∨ x ∈ l := by
  induction l with
  | nil => simp [insertInto]
  | cons b bs ih =>
    unfold insertInto
    split
    · simp
    · split
      · next h =>
        have hab : a = b := Named.name_inj (by simpa using h)
        subst hab
        simp
      · simp only [List.mem_cons, ih]
        constructor
        · rintro (h | h | h) <;> simp [h]
        · rintro (h | h | h) <;> simp [h]

/-- Putting a value into an ordered list keeps the order. -/
theorem ascending_insertInto (a : α) {l : List α} (h : Ascending l) :
    Ascending (insertInto a l) := by
  induction l with
  | nil => simp [insertInto, Ascending]
  | cons b bs ih =>
    have hb := List.pairwise_cons.1 h
    unfold insertInto
    split
    · next hab =>
      refine List.pairwise_cons.2 ⟨fun x hx => ?_, h⟩
      rcases List.mem_cons.1 hx with rfl | hx
      · exact hab
      · exact Text.precedes_trans hab (hb.1 x hx)
    · next hab =>
      split
      · exact h
      · next hne =>
        refine List.pairwise_cons.2 ⟨fun x hx => ?_, ih hb.2⟩
        rcases (mem_insertInto a x bs).1 hx with rfl | hx
        · rcases Text.precedes_total (Named.name b) (Named.name x) with h | h | h
          · exact h
          · simp [h] at hne
          · simp [h] at hab
        · exact hb.1 x hx

/-- The set without members. -/
def empty : NameSet α := ⟨[], .nil⟩

/-- A set with one more member. -/
def insert (s : NameSet α) (a : α) : NameSet α :=
  ⟨insertInto a s.members, ascending_insertInto a s.ascending⟩

/-- The set of the values of a list. -/
def ofList : List α → NameSet α
  | [] => empty
  | a :: as => (ofList as).insert a

/-- The members of the set of a list are the values of the list. -/
theorem mem_ofList (x : α) (l : List α) : x ∈ (ofList l).members ↔ x ∈ l := by
  induction l with
  | nil => simp [ofList, empty]
  | cons a as ih =>
    rw [List.mem_cons, ← ih]
    exact mem_insertInto a x _

/-- Ordered lists with the same values are equal. -/
theorem eq_of_ascending {l m : List α} (hl : Ascending l) (hm : Ascending m)
    (h : ∀ x, x ∈ l ↔ x ∈ m) : l = m := by
  induction l generalizing m with
  | nil =>
    cases m with
    | nil => rfl
    | cons b bs => simpa using h b
  | cons a as ih =>
    cases m with
    | nil => simpa using h a
    | cons b bs =>
      have ha := List.pairwise_cons.1 hl
      have hb := List.pairwise_cons.1 hm
      -- each head is the least value of its list, so the heads agree
      have hab : a = b := by
        rcases List.mem_cons.1 ((h a).1 (by simp)) with rfl | h₁
        · rfl
        · rcases List.mem_cons.1 ((h b).2 (by simp)) with rfl | h₂
          · rfl
          · have hcycle := Text.precedes_trans (ha.1 b h₂) (hb.1 a h₁)
            rw [Text.precedes_irrefl] at hcycle
            exact absurd hcycle (by decide)
      subst hab
      have hnot : ∀ {t : List α}, (∀ x ∈ t, Text.precedes (Named.name a) (Named.name x) = true) →
          a ∉ t := fun ht hmem => by
        have hself := ht a hmem
        rw [Text.precedes_irrefl] at hself
        exact absurd hself (by decide)
      refine congrArg (a :: ·) (ih ha.2 hb.2 fun x => ?_)
      have hx := h x
      simp only [List.mem_cons] at hx
      constructor
      · intro hmem
        rcases hx.1 (.inr hmem) with rfl | hmem'
        · exact absurd hmem (hnot ha.1)
        · exact hmem'
      · intro hmem
        rcases hx.2 (.inr hmem) with rfl | hmem'
        · exact absurd hmem (hnot hb.1)
        · exact hmem'

/-- Sets with the same members are equal. -/
theorem ext_mem {s t : NameSet α} (h : ∀ x, x ∈ s.members ↔ x ∈ t.members) : s = t := by
  cases s with
  | mk l hl =>
    cases t with
    | mk m hm =>
      have : l = m := eq_of_ascending hl hm h
      subst this
      rfl

end NameSet

end FlatExpr
