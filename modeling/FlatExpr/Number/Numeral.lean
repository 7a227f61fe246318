import FlatExpr.Number.Binary64
import FlatExpr.Text.Basic

/-!
# Decimal numerals

A numeral is a number as it is written in decimal: a sign, whole digits, digits after the point and
a power of ten. `Numeral.float?` reads it as a floating-point number with 64 bits of working
precision: digits beyond those that fit are dropped, and the power of ten is applied by one
multiplication or division with its nearest floating-point number.
-/

namespace FlatExpr

/-- A number as it is written. -/
structure Numeral where
  /-- Whether there is a minus sign. -/
  negative : Bool
  /-- The digits before the point. -/
  whole : Text
  /-- The digits after the point; none when there is no point. -/
  fraction : Text := []
  /-- The power of ten: whether it has a minus sign, and its digits. -/
  exponent : Option (Bool × Text) := none
  deriving DecidableEq

namespace Numeral

/-- The numeral of an integer. -/
def ofInt (n : Int) : Numeral := ⟨decide (n < 0), Text.ofNat n.natAbs, [], none⟩

/-- The numeral of a natural number. -/
def ofNat (n : Nat) : Numeral := ⟨false, Text.ofNat n, [], none⟩

/-- The numeral as it is written. A power of ten always has its sign. -/
def text (n : Numeral) : Text :=
  (if n.negative then "-".toList else []) ++ n.whole
    ++ (if n.fraction.isEmpty then [] else ".".toList ++ n.fraction)
    ++ match n.exponent with
      | none => []
      | some (negative, digits) => (if negative then "e-".toList else "e+".toList) ++ digits

/-- The value of a digit. -/
def digitValue (c : Char) : Nat := c.toNat - '0'.toNat

/-- The number that a list of digits denotes. -/
def natOf (digits : Text) : Nat := digits.foldl (fun n c => n * 10 + digitValue c) 0

/-- The greatest number of the working precision. -/
def greatestWord : Nat := Nat.pow 2 64 - 1

/-- Appends digits to a number as long as the working precision holds it. The second part is how
many digits were appended. -/
def accumulate (n : Nat) : Text → Nat × Nat
  | [] => (n, 0)
  | c :: cs =>
    let next := n * 10 + digitValue c
    if greatestWord < next then (n, 0)
    else
      let (m, count) := accumulate next cs
      (m, count + 1)

/-- The greatest power of ten of the floating-point format. -/
def greatestPower : Nat := 308

/-- The nearest floating-point number to a power of ten. -/
def powerOfTen? (k : Nat) : Option Binary64 := Binary64.ofNat? (Nat.pow 10 k)

/-- A magnitude times a power of ten; `none` when the result is beyond the format. Powers below the
least one are applied in two divisions, after which nothing is left. -/
def applyPower? (x : Binary64) (e : Int) : Option Binary64 :=
  let most : Int := greatestPower
  if x.isZero then some x
  else if most < e then none
  else if 0 ≤ e then do x.mul? (← powerOfTen? e.toNat)
  else if -most ≤ e then do x.div? (← powerOfTen? (-e).toNat)
  else if -2 * most ≤ e then do
    let y ← x.div? (← powerOfTen? greatestPower)
    y.div? (← powerOfTen? (-e - most).toNat)
  else some Binary64.zero

/-- The digits that the working precision holds, as one number, and the power of ten that belongs
to them. -/
def parts (n : Numeral) : Nat × Int :=
  let (m, kept) := accumulate 0 n.whole
  let (m, places) := accumulate m n.fraction
  let dropped : Int := n.whole.length - kept
  let power : Int :=
    match n.exponent with
    | none => 0
    | some (negative, digits) => if negative then -(natOf digits : Int) else natOf digits
  (m, dropped - places + power)

/-- The numeral as a floating-point number; `none` when it is beyond the format. -/
def float? (n : Numeral) : Option Binary64 := do
  let (m, e) := n.parts
  let x ← applyPower? (← Binary64.ofNat? m) e
  return x.withSign n.negative

/-- The integer that the numeral writes, if it has neither a point nor a power of ten. -/
def int? (n : Numeral) : Option Int :=
  if n.fraction.isEmpty && n.exponent.isNone then
    some (if n.negative then -(natOf n.whole : Int) else natOf n.whole)
  else none

end Numeral

end FlatExpr
