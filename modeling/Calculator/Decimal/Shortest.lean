import Calculator.Decimal

/-!
The fewest digits that identify a magnitude.

`Magnitude.admits m d` says that the decimal `d` is read back as `m`: it lies
between the halfway points to the neighbours of `m`. `Magnitude.shortest` takes the
coarsest decimal grid with an admitted point next to `m`, and of two such points
the nearer; of two that are equally near it takes the upper.
-/

namespace Calculator.Magnitude

/-- The distance to the halfway point below a magnitude, in quarters of the last
place. Below a power of two the neighbour is only half a place away. -/
def quartersBelow (m : Magnitude) : Nat :=
  if m.significand = fractionCount ∧ leastExponent < m.exponent then 1 else 2

/-- A decimal is read back as `m` when it lies between the halfway points around
`m`; the points themselves count exactly when the significand is even. -/
def admits (m : Magnitude) (d : Decimal) : Bool :=
  let even := m.significand % 2 == 0
  let lower := d.compareBinary (4 * m.significand - m.quartersBelow) (m.exponent - 2)
  let upper := d.compareBinary (4 * m.significand + 2) (m.exponent - 2)
  (lower == .gt || even && lower == .eq) && (upper == .lt || even && upper == .eq)

/-- The greatest multiple of `10 ^ k` that is not above `m`. -/
def floorAt (m : Magnitude) (k : Int) : Decimal :=
  ⟨m.significand * power 2 m.exponent * power 10 (-k) /
    (power 2 (-m.exponent) * power 10 k), k⟩

/-- The admitted multiple of `10 ^ k` next to `m`, if there is one. -/
def admittedAt? (m : Magnitude) (k : Int) : Option Decimal :=
  let below := m.floorAt k
  let above := below.next
  match m.admits below, m.admits above with
  | true, true =>
    let middle : Decimal := ⟨2 * below.coefficient + 1, k⟩
    if middle.compareBinary (2 * m.significand) m.exponent == .gt then some below
    else some above
  | true, false => some below
  | false, true => some above
  | false, false => none

/-- The magnitude itself, with as many digits as it takes. -/
def exact (m : Magnitude) : Decimal :=
  if 0 ≤ m.exponent then ⟨m.significand * power 2 m.exponent, 0⟩
  else ⟨m.significand * power 5 (-m.exponent), m.exponent⟩

/-- A decimal exponent at or above the leading digit of `m`; `1233 / 4096` is a
little less than the decimal logarithm of two. -/
def leadingExponent (m : Magnitude) : Int :=
  (m.significand.log2 + 1 + m.exponent) * 1233 / 4096 + 1

/-- The decimal with the fewest digits among those that are read back as `m`,
searched for from the leading digit on. Twenty grids are more than any double
needs. -/
def shortest (m : Magnitude) : Decimal :=
  if m.significand = 0 then ⟨0, 0⟩
  else
    ((List.range 20).findSome? fun i : Nat =>
      m.admittedAt? (m.leadingExponent - i)).getD m.exact

end Calculator.Magnitude
