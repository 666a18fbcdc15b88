import Statechart.Json.Binary64

/-!
The shortest decimal text of a binary number: the fewest digits that lie in the interval of reals
rounding to it, of those the nearest to it, and of two equally near the even one. The layout of the
digits is one record, so the choice of notation is stated in one place.
-/
namespace Statechart.Json

/-- The value is `d₁.d₂d₃… * 10 ^ exponent`. -/
structure Decimal where
  digits : List Char
  exponent : Int
  deriving DecidableEq, Repr

namespace Binary64

/-- The reals that round to a number, with the number itself, in units of a quarter of its last
bit; the ends belong to the interval exactly when the mantissa is even. -/
structure Interval where
  low : Nat
  value : Nat
  high : Nat
  closed : Bool
  exponent : Int

/-- Below a power of two the representable numbers stand twice as close. -/
def interval (x : Binary64) : Interval where
  low := if x.mantissa = Nat.pow 2 52 ∧ leastExponent < x.exponent then 4 * x.mantissa - 1
    else 4 * x.mantissa - 2
  value := 4 * x.mantissa
  high := 4 * x.mantissa + 2
  closed := x.mantissa % 2 == 0
  exponent := x.exponent - 2

/-- Compares `a * 2 ^ e` with `d * 10 ^ k`, both multiplied out to whole numbers. -/
def comparands (a : Nat) (e : Int) (d : Nat) (k : Int) : Nat × Nat :=
  (a * Nat.pow 2 e.toNat * Nat.pow 10 (-k).toNat, d * Nat.pow 10 k.toNat * Nat.pow 2 (-e).toNat)

def Interval.holds (i : Interval) (d : Nat) (k : Int) : Bool :=
  let (l, x) := comparands i.low i.exponent d k
  let (h, y) := comparands i.high i.exponent d k
  if i.closed then l ≤ x && y ≤ h else l < x && y < h

/-- The point of the grid of multiples of `10 ^ k` to write, if one of the value's two neighbours
on that grid rounds to the value. -/
def Interval.pick? (i : Interval) (k : Int) : Option Nat :=
  let (n, den) := comparands i.value i.exponent 1 k
  let d := n / den
  let r := n % den
  match i.holds d k, i.holds (d + 1) k with
  | false, false => none
  | true, false => some d
  | false, true => some (d + 1)
  | true, true =>
    some (if 2 * r < den then d else if den < 2 * r then d + 1 else if d % 2 = 0 then d else d + 1)

/-- The greatest exponent of ten not above the value, looked for upwards from an estimate that is
never too high. -/
def decimalExponent (x : Binary64) : Int :=
  let bits : Int := (Nat.log2 x.mantissa : Int) + x.exponent
  let low := (bits * 30103).fdiv 100000 - 1
  let fits (k : Int) : Bool := let (n, d) := comparands x.mantissa x.exponent 1 k; decide (d ≤ n)
  if fits (low + 3) then low + 3 else if fits (low + 2) then low + 2
  else if fits (low + 1) then low + 1 else low

def dropTrailingZeros (ds : List Char) : List Char :=
  (ds.reverse.dropWhile (· == '0')).reverse

/-- Tries one digit, then two, and so on. Seventeen always suffice. -/
def shortestFrom (i : Interval) (top : Int) : Nat → Nat → Decimal
  | _, 0 => ⟨['0'], 0⟩
  | n, tries + 1 =>
    match i.pick? (top - n) with
    | some d =>
      let ds := Nat.toDigits 10 d
      ⟨dropTrailingZeros ds, top - n + ds.length - 1⟩
    | none => shortestFrom i top (n + 1) tries

def shortest (x : Binary64) : Decimal :=
  shortestFrom x.interval x.decimalExponent 0 17

/-- Which decimal exponents are written without an exponent mark. -/
structure Layout where
  leastPositional : Int
  greatestPositional : Int
  mark : Char

/-- Exponents from -5 to 15 are written out, with a point and at least one digit after it; others
follow a mark, with their sign. -/
def plainText : Layout := ⟨-5, 15, 'e'⟩

def Layout.write (l : Layout) (d : Decimal) : List Char :=
  if l.leastPositional ≤ d.exponent ∧ d.exponent ≤ l.greatestPositional then
    if d.exponent < 0 then
      '0' :: '.' :: (List.replicate (-d.exponent - 1).toNat '0' ++ d.digits)
    else
      let whole := d.exponent.toNat + 1
      let fraction := d.digits.drop whole
      d.digits.take whole ++ List.replicate (whole - d.digits.length) '0' ++
        '.' :: (if fraction.isEmpty then ['0'] else fraction)
  else
    let fraction := d.digits.drop 1
    d.digits.take 1 ++ (if fraction.isEmpty then [] else '.' :: fraction) ++
      l.mark :: (if d.exponent < 0 then '-' else '+') :: Nat.toDigits 10 d.exponent.natAbs

def text (x : Binary64) : List Char :=
  (if x.negative then ['-'] else []) ++
    if x.isZero then ['0', '.', '0'] else plainText.write x.shortest

end Binary64

end Statechart.Json
