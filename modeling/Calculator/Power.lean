/-!
Powers with integer exponents, as fractions: `base ^ exponent` is
`power base exponent` over `power base (-exponent)`, and one of the two is one.
-/

namespace Calculator

/-- The numerator of a power of a whole number. -/
def power (base : Nat) (exponent : Int) : Nat :=
  Nat.pow base exponent.toNat

end Calculator
