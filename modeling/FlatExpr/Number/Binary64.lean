/-!
# Binary floating-point numbers

The finite numbers of the 64-bit binary format, as exact dyadic fractions. Every operation is given
by its exact rational result, which `ofRatio?` takes to the nearest number of the format, a tie to
the one with the even significand.
-/

namespace FlatExpr

/-- A finite number of the 64-bit binary format: `significand · 2 ^ exponent` with a sign. The
significand takes 53 bits, and fewer only if the exponent is the least one. -/
structure Binary64 where
  /-- Whether the number has a minus sign; zero may have one too. -/
  negative : Bool
  /-- The significand. -/
  significand : Nat
  /-- The exponent of the last binary place. -/
  exponent : Int
  deriving DecidableEq

namespace Binary64

/-- The value of the leading bit of a significand of 53 bits. -/
def leadingBit : Nat := Nat.pow 2 52

/-- The exponent of the last place of the smallest numbers. -/
def leastExponent : Int := -1074

/-- The exponent of the last place of the greatest numbers. -/
def greatestExponent : Int := 971

/-- Zero without a minus sign. -/
def zero : Binary64 := ⟨false, 0, leastExponent⟩

/-- Whether the number is zero, with either sign. -/
def isZero (x : Binary64) : Bool := x.significand == 0

/-- The number with the given sign and the magnitude of `x`. -/
def withSign (negative : Bool) (x : Binary64) : Binary64 := { x with negative }

/-- The quotient of two natural numbers, rounded to the nearest one; a tie goes to the even one. -/
def halfEven (num den : Nat) : Nat :=
  let q := num / den
  let r := num % den
  if den < 2 * r || (2 * r == den && q % 2 == 1) then q + 1 else q

/-- The fraction `num / den · 2 ^ (-e)`, as numerator and denominator. -/
def scaled (num den : Nat) (e : Int) : Nat × Nat :=
  if 0 ≤ e then (num, den * Nat.pow 2 e.toNat) else (num * Nat.pow 2 (-e).toNat, den)

/-- The number nearest to the fraction `num / den`; `none` when that is beyond the format. -/
def ofRatio? (num den : Nat) : Option Binary64 :=
  if num = 0 then some zero
  else
    -- the quotient at this exponent takes at most 54 bits
    let e := max leastExponent ((num.log2 : Int) - den.log2 - 53)
    let (n, d) := scaled num den e
    let e := if 2 * leadingBit ≤ n / d then e + 1 else e
    let (n, d) := scaled num den e
    let m := halfEven n d
    let (m, e) := if m = 2 * leadingBit then (leadingBit, e + 1) else (m, e)
    if greatestExponent < e then none else some ⟨false, m, e⟩

/-- The number nearest to a natural number. -/
def ofNat? (n : Nat) : Option Binary64 := ofRatio? n 1

/-- The product of two magnitudes. -/
def mul? (x y : Binary64) : Option Binary64 :=
  let (n, d) := scaled (x.significand * y.significand) 1 (-(x.exponent + y.exponent))
  ofRatio? n d

/-- The quotient of two magnitudes. -/
def div? (x y : Binary64) : Option Binary64 :=
  let (n, d) := scaled x.significand y.significand (-(x.exponent - y.exponent))
  ofRatio? n d

/-- The 64 bits of the number: sign, biased exponent, and significand without its leading bit. -/
def bits (x : Binary64) : Nat :=
  let magnitude :=
    if x.significand < leadingBit then x.significand
    else (x.exponent - leastExponent + 1).toNat * leadingBit + (x.significand - leadingBit)
  if x.negative then Nat.pow 2 63 + magnitude else magnitude

/-- Whether two numbers are equal as numbers, so that the sign of zero does not matter. -/
def equals (x y : Binary64) : Bool := (x.isZero && y.isZero) || x == y

end Binary64

end FlatExpr
