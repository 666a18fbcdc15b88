/-!
Binary floating point with 53 significant bits, in exact natural-number arithmetic. A finite number
is a sign, a mantissa and a power of two; every operation finds the exact quotient first and then
rounds it to the nearest representable number, a tie going to the even mantissa.
-/
namespace Statechart.Json

/-- The value is `mantissa * 2 ^ exponent`, negated if `negative`. -/
structure Binary64 where
  negative : Bool
  mantissa : Nat
  exponent : Int
  deriving DecidableEq, Repr, Inhabited

namespace Binary64

def leastExponent : Int := -1074

def greatestExponent : Int := 971

def zero : Binary64 := ⟨false, 0, leastExponent⟩

def isZero (x : Binary64) : Bool := x.mantissa == 0

/-- The quotient rounded to a whole number, a half going to the even neighbour. -/
def roundQuotient (num den : Nat) : Nat :=
  let q := num / den
  let r := num % den
  if 2 * r < den then q else if den < 2 * r then q + 1 else if q % 2 = 0 then q else q + 1

/-- The quotient `num / den` in units of `2 ^ exponent`, as a fraction. -/
def inUnits (num den : Nat) (exponent : Int) : Nat × Nat :=
  if 0 ≤ exponent then (num, den * Nat.pow 2 exponent.toNat)
  else (num * Nat.pow 2 (-exponent).toNat, den)

/-- The exponent at which `num / den` has a mantissa of 53 bits, or the least one there is. -/
def exponentFor (num den : Nat) : Int :=
  let low := max leastExponent ((Nat.log2 num : Int) - (Nat.log2 den : Int) - 53)
  let (n, d) := inUnits num den low
  if d * Nat.pow 2 53 ≤ n then low + 1 else low

/-- The representable number nearest to `num / den`; none if that would be infinite. -/
def ofQuotient? (num den : Nat) : Option Binary64 :=
  if num = 0 then some zero else
    let e := exponentFor num den
    let (n, d) := inUnits num den e
    let m := roundQuotient n d
    let (m, e) := if m = Nat.pow 2 53 then (Nat.pow 2 52, e + 1) else (m, e)
    if greatestExponent < e then none else some ⟨false, m, e⟩

/-- The magnitude as a fraction of whole numbers. -/
def toFraction (x : Binary64) : Nat × Nat :=
  if 0 ≤ x.exponent then (x.mantissa * Nat.pow 2 x.exponent.toNat, 1)
  else (x.mantissa, Nat.pow 2 (-x.exponent).toNat)

def powerOfTen (k : Nat) : Binary64 := (ofQuotient? (Nat.pow 10 k) 1).getD zero

/-- Product of magnitudes. -/
def mul? (x y : Binary64) : Option Binary64 :=
  let (a, b) := x.toFraction
  let (c, d) := y.toFraction
  ofQuotient? (a * c) (b * d)

/-- Quotient of magnitudes. -/
def div? (x y : Binary64) : Option Binary64 :=
  let (a, b) := x.toFraction
  let (c, d) := y.toFraction
  ofQuotient? (a * d) (b * c)

/-- Divides by `10 ^ 308` as often as asked, or until nothing is left. -/
def shrink? (x : Binary64) : Nat → Option Binary64
  | 0 => some x
  | n + 1 => if x.isZero then some x else (x.div? (powerOfTen 308)).bind (shrink? · n)

/-- Scales by a power of ten, one rounding at a time: powers up to `10 ^ 308` in one
multiplication or division, smaller ones after repeated division by `10 ^ 308`. -/
def scale? (x : Binary64) (exponent : Int) : Option Binary64 :=
  let k := exponent.natAbs
  if exponent < 0 then
    (x.shrink? ((k - 1) / 308)).bind (·.div? (powerOfTen (k - (k - 1) / 308 * 308)))
  else if k ≤ 308 then x.mul? (powerOfTen k)
  else if x.isZero then some x
  else none

end Binary64

end Statechart.Json
