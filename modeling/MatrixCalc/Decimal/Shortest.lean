/-!
# Shortest decimals

A positive double is a mantissa times a power of two. Every real number of an interval around it
rounds to it. `Magnitude.shortest` is the decimal of that interval with the fewest digits, and of
those with as many digits the nearest to the double; of two equally near ones it is the upper.

The search is on grids. The decimals with the double's leading place and `n` digits are the
multiples of a power of ten, and the two of them around the double are the only candidates: if any
point of the grid lies in the interval, one of these two does.
-/

namespace MatrixCalc

/-- The number `coefficient * 10 ^ exponent`. -/
structure Decimal where
  coefficient : Nat
  exponent : Int
deriving DecidableEq, Repr

/-- The number `mantissa * 2 ^ exponent`, the absolute value of a finite double other than zero. -/
structure Magnitude where
  mantissa : Nat
  exponent : Int
deriving DecidableEq, Repr

/-! ## §1 Decimals -/

namespace Decimal

/-- How many decimal digits a number has; zero has one. -/
def digitCount (n : Nat) : Nat := (Nat.toDigits 10 n).length

/-- The same number with no zero at the end of its coefficient. -/
def trimmed (d : Decimal) : Decimal :=
  if _h : d.coefficient ≠ 0 ∧ d.coefficient % 10 = 0 then
    trimmed ⟨d.coefficient / 10, d.exponent + 1⟩
  else d
termination_by d.coefficient
decreasing_by omega

def tenPow (n : Nat) : Nat := Nat.pow 10 n

def twoPow (n : Nat) : Nat := Nat.pow 2 n

/-- The two numbers `c * 10 ^ a` and `x * 2 ^ b`, both times the same power of ten and of two that
makes them whole. -/
def aligned (c : Nat) (a : Int) (x : Nat) (b : Int) : Nat × Nat :=
  (c * tenPow a.toNat * twoPow (-b).toNat, x * twoPow b.toNat * tenPow (-a).toNat)

end Decimal

/-! ## §2 The interval of a double -/

namespace Magnitude

/-- The distance to the lower end of the interval, in quarters of the last binary place. It is half
a place, but below a power of two the doubles lie twice as dense. -/
def lowerGap (v : Magnitude) : Nat :=
  if v.mantissa = Decimal.twoPow 52 ∧ -1074 < v.exponent then 1 else 2

/-- Whether a decimal rounds to the double. The ends of the interval do if the mantissa is even. -/
def encloses (v : Magnitude) (d : Decimal) : Bool :=
  let low := Decimal.aligned d.coefficient d.exponent (4 * v.mantissa - v.lowerGap) (v.exponent - 2)
  let high := Decimal.aligned d.coefficient d.exponent (4 * v.mantissa + 2) (v.exponent - 2)
  if v.mantissa % 2 = 0 then low.2 ≤ low.1 && high.1 ≤ high.2
  else low.2 < low.1 && high.1 < high.2

/-! ## §3 The search -/

/-- The `k` with `10 ^ (k - 1) ≤ v < 10 ^ k`. -/
def leadingPlace (v : Magnitude) : Int :=
  let num := v.mantissa * Decimal.twoPow v.exponent.toNat
  let den := Decimal.twoPow (-v.exponent).toNat
  if den ≤ num then Decimal.digitCount (num / den)
  else 1 - Decimal.digitCount ((den - 1) / num)

/-- How often `10 ^ a` goes into the double. -/
def quotient (v : Magnitude) (a : Int) : Nat :=
  (v.mantissa * Decimal.twoPow v.exponent.toNat * Decimal.tenPow (-a).toNat) /
    (Decimal.twoPow (-v.exponent).toNat * Decimal.tenPow a.toNat)

/-- Whether the double is at least `c + 1/2` times `10 ^ a`. -/
def atLeastHalfPast (v : Magnitude) (c : Nat) (a : Int) : Bool :=
  let sides := Decimal.aligned (2 * c + 1) a (2 * v.mantissa) v.exponent
  sides.1 ≤ sides.2

/-- Of the two multiples of `10 ^ a` around the double, the nearer one that rounds to it. -/
def nearestMultiple? (v : Magnitude) (a : Int) : Option Decimal :=
  let c := v.quotient a
  let lower : Decimal := ⟨c, a⟩
  let upper : Decimal := ⟨c + 1, a⟩
  let candidates := if v.atLeastHalfPast c a then [upper, lower] else [lower, upper]
  candidates.find? v.encloses

/-- The decimal with the fewest digits that rounds to the double, and the nearest of these.
Seventeen digits are always enough. -/
def shortest (v : Magnitude) : Decimal :=
  let place := v.leadingPlace
  let found := (List.range 17).findSome? fun n => v.nearestMultiple? (place - (n + 1 : Nat))
  (found.getD ⟨v.quotient (place - 17), place - 17⟩).trimmed

end Magnitude

end MatrixCalc
