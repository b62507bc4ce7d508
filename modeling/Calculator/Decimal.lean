import Calculator.Magnitude
import Calculator.Power

/-!
Decimals, and the double nearest to one.

`Decimal.plain` writes a decimal in digits with at most one point and no exponent.
`Decimal.nearest` is the magnitude a decimal rounds to, of two equally near ones
that with the even significand; `Decimal.toFloat` is its double.
-/

namespace Calculator

/-- The number `coefficient * 10 ^ exponent`. -/
structure Decimal where
  coefficient : Nat
  exponent : Int
deriving DecidableEq, Repr

namespace Decimal

/-- The decimal written out: a whole number with its zeros, or a point before the
last `-exponent` places. -/
def plain (d : Decimal) : List Char :=
  if 0 ≤ d.exponent then
    Nat.toDigits 10 d.coefficient ++ List.replicate d.exponent.toNat '0'
  else
    let one := power 10 (-d.exponent)
    Nat.toDigits 10 (d.coefficient / one) ++
      '.' :: (Nat.toDigits 10 (d.coefficient % one)).leftpad (-d.exponent).toNat '0'

/-- The next point on the grid of the decimal's exponent. -/
def next (d : Decimal) : Decimal :=
  ⟨d.coefficient + 1, d.exponent⟩

/-- The order of a decimal against `n * 2 ^ k`, by cross multiplication. -/
def compareBinary (d : Decimal) (n : Nat) (k : Int) : Ordering :=
  compare (d.coefficient * power 10 d.exponent * power 2 (-k))
    (n * power 2 k * power 10 (-d.exponent))

/-! ### Rounding to a double -/

/-- The natural number nearest to `num / den`; an exact half goes to the even
neighbour. -/
def roundQuotient (num den : Nat) : Nat :=
  let below := num / den
  match compare (2 * (num % den)) den with
  | .lt => below
  | .eq => below + below % 2
  | .gt => below + 1

/-- The `k` with `2 ^ k ≤ num / den < 2 ^ (k + 1)`, for positive arguments. -/
def binaryOrder (num den : Nat) : Int :=
  let k : Int := num.log2 - den.log2
  if den * power 2 k ≤ num * power 2 (-k) then k else k - 1

/-- The magnitude nearest to `num / den`: 53 binary places of the quotient, or as
many as the least exponent leaves. -/
def nearestQuotient (num den : Nat) : Magnitude :=
  if num = 0 then ⟨0, Magnitude.leastExponent⟩
  else
    let exponent := max (binaryOrder num den - 52) Magnitude.leastExponent
    ⟨roundQuotient (num * power 2 (-exponent)) (den * power 2 exponent), exponent⟩

/-- The magnitude nearest to a decimal. -/
def nearest (d : Decimal) : Magnitude :=
  nearestQuotient (d.coefficient * power 10 d.exponent) (power 10 (-d.exponent))

/-- A positive decimal with a greater exponent than this exceeds every double, and
one below `10 ^ (-farExponent)` is nearest to zero. -/
def farExponent : Nat := 400

/-- The double nearest to a decimal, infinite when the decimal is out of range. Far
outside the range the exponent alone decides. -/
def toFloat (d : Decimal) : Float :=
  if d.coefficient = 0 ∨ d.exponent + d.coefficient.log2 < -farExponent then
    Magnitude.toFloat ⟨0, Magnitude.leastExponent⟩
  else if farExponent < d.exponent then
    Float.ofBits (UInt64.ofNat Magnitude.infinityPattern)
  else d.nearest.toFloat

end Decimal

end Calculator
