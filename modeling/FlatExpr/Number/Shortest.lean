import FlatExpr.Number.Numeral

/-!
# Shortest decimals

The shortest decimal of a floating-point number is the one with the fewest digits among those that
are nearer to it than to any other number of the format. It lies on the coarsest grid of powers of
ten that has a point in the interval of the reals that round to the number, so the search goes from
coarse to fine grids. On that grid the nearer of the two neighbours is taken, and of two equally
near ones the even one.
-/

namespace FlatExpr.Binary64

/-- The interval of the reals that round to the magnitude of `x`, in units of a quarter of its last
place: below a power of two the neighbour is half as far away as above it. -/
def interval (x : Binary64) : Nat × Nat :=
  let below := if x.significand = leadingBit && leastExponent < x.exponent then 1 else 2
  (4 * x.significand - below, 4 * x.significand + 2)

/-- The fraction `n · 2 ^ (exponent - 2) / 10 ^ k`, for `n` quarters of the last place of `x`, as
numerator and denominator. -/
def onGrid (x : Binary64) (k : Int) (n : Nat) : Nat × Nat :=
  let (num, den) := scaled n 1 (2 - x.exponent)
  if 0 ≤ k then (num, den * Nat.pow 10 k.toNat) else (num * Nat.pow 10 (-k).toNat, den)

/-- Whether the decimal `c · 10 ^ k` rounds to the magnitude of `x`. The ends of the interval do so
if the significand is even. -/
def readsBack (x : Binary64) (k : Int) (c : Nat) : Bool :=
  let (low, high) := x.interval
  let (lowNum, lowDen) := x.onGrid k low
  let (highNum, highDen) := x.onGrid k high
  if x.significand % 2 = 0 then lowNum ≤ c * lowDen && c * highDen ≤ highNum
  else lowNum < c * lowDen && c * highDen < highNum

/-- The point of the grid of `10 ^ k` that is nearest to `x` among those that round to it. -/
def pointOn? (x : Binary64) (k : Int) : Option Nat :=
  let (num, den) := x.onGrid k (4 * x.significand)
  let c := num / den
  match x.readsBack k c, x.readsBack k (c + 1) with
  | true, true => some (halfEven num den)
  | true, false => some c
  | false, true => some (c + 1)
  | false, false => none

/-- The first point that rounds to `x` on the grids from `10 ^ k` on, each ten times as fine as the
one before. -/
def search (x : Binary64) (k : Int) : (grids : Nat) → Option (Nat × Int)
  | 0 => none
  | grids + 1 =>
    match x.pointOn? k with
    | some c => some (c, k)
    | none => search x (k - 1) grids

/-- The digits of the shortest decimal of a magnitude other than zero, and the exponent of the last
one. The grids end where every number of the format has a point of its own. -/
def shortest (x : Binary64) : Nat × Int :=
  (x.search 308 (308 + 343)).getD (0, 0)

/-- Which decimals are written without a power of ten: those whose first digit stands for a power
of ten in a range. -/
structure Layout where
  /-- The least power. -/
  plainFrom : Int
  /-- The greatest power. -/
  plainTo : Int

/-- The numeral of a decimal with the given digits, of which the last stands for `10 ^ k`. There is
always a point or a power of ten. -/
def Layout.numeral (layout : Layout) (negative : Bool) (digits : Text) (k : Int) : Numeral :=
  let lead : Int := k + digits.length - 1
  if layout.plainFrom ≤ lead && lead ≤ layout.plainTo then
    if 0 ≤ k then ⟨negative, digits ++ List.replicate k.toNat '0', ['0'], none⟩
    else if 0 ≤ lead then
      ⟨negative, digits.take (lead.toNat + 1), digits.drop (lead.toNat + 1), none⟩
    else ⟨negative, ['0'], List.replicate (-lead - 1).toNat '0' ++ digits, none⟩
  else
    ⟨negative, digits.take 1, digits.drop 1, some (decide (lead < 0), Text.ofNat lead.natAbs)⟩

/-- The shortest numeral of a number. -/
def numeral (layout : Layout) (x : Binary64) : Numeral :=
  if x.isZero then ⟨x.negative, ['0'], ['0'], none⟩
  else
    let (c, k) := x.shortest
    layout.numeral x.negative (Text.ofNat c) k

end FlatExpr.Binary64
