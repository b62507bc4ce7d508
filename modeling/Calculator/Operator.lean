/-!
The binary operators, and how tightly they bind.

`Level` orders the kinds of expressions from sums to primaries. Each operator has
the level of the expressions it makes (`Operator.level`) and the levels that its
operands need (`leftLevel`, `rightLevel`). Sums and products may stand to the left of
an operator of their own level and so group to the left; powers group to the right.
-/

namespace Calculator

/-- The kinds of expressions, from the loosest to the tightest. -/
inductive Level where
  | sum | product | negation | power | primary
deriving DecidableEq, Repr

/-- The place of a level in the order. -/
def Level.rank : Level → Nat
  | .sum => 1
  | .product => 2
  | .negation => 3
  | .power => 4
  | .primary => 5

/-- Levels are ordered by how tightly they bind. -/
instance : LE Level where
  le a b := a.rank ≤ b.rank

instance (a b : Level) : Decidable (a ≤ b) :=
  inferInstanceAs (Decidable (a.rank ≤ b.rank))

/-- The binary operators. A product may be written with a star or implied by two
adjacent operands. -/
inductive Operator where
  | add | sub | mul | impliedMul | div | mod | pow
deriving DecidableEq, Repr

namespace Operator

/-- The sign of an operator; an implied product shows that of a written one. -/
def symbol : Operator → String
  | .add => "+"
  | .sub => "-"
  | .mul | .impliedMul => "*"
  | .div => "/"
  | .mod => "%"
  | .pow => "^"

/-- The level of the expressions that an operator makes. -/
def level : Operator → Level
  | .add | .sub => .sum
  | .mul | .impliedMul | .div | .mod => .product
  | .pow => .power

/-- The least level of a left operand without parentheses. -/
def leftLevel : Operator → Level
  | .pow => .primary
  | op => op.level

/-- The least level of a right operand without parentheses. An exponent may begin
with a sign. -/
def rightLevel : Operator → Level
  | .add | .sub => .product
  | .mul | .impliedMul | .div | .mod => .negation
  | .pow => .negation

end Operator

end Calculator
