import Calculator.Decimal

/-!
The remainder of truncated division.

`remainder x y` is `x` less the multiple of `y` next to it towards zero. It is
computed on whole numbers of a common unit, so no digit is lost however far apart
the magnitudes are.
-/

namespace Calculator

/-- The remainder of two magnitudes, the second of which is not zero: a multiple of
the smaller of their units that is below the second. -/
def Magnitude.remainder (a b : Magnitude) : Magnitude :=
  let unit := min a.exponent b.exponent
  ⟨a.significand * power 2 (a.exponent - unit) %
    (b.significand * power 2 (b.exponent - unit)), unit⟩

/-- The double nearest to any magnitude, whatever the size of its significand. -/
def Magnitude.round (m : Magnitude) : Float :=
  (Decimal.nearestQuotient (m.significand * power 2 m.exponent)
    (power 2 (-m.exponent))).toFloat

/-- The remainder of truncated division. It has the sign of `x`, and is no number
when `x` is infinite or `y` is zero. -/
def remainder (x y : Float) : Float :=
  match Form.ofFloat x, Form.ofFloat y with
  | .finite negative a, .finite _ b =>
    if b.significand = 0 then 0.0 / 0.0
    else if negative then -(a.remainder b).round else (a.remainder b).round
  | .finite _ _, .infinite _ => x
  | _, _ => 0.0 / 0.0

end Calculator
