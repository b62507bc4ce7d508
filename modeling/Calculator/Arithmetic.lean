import Calculator.Fault
import Calculator.Numeral
import Calculator.Operator
import Calculator.Remainder

/-!
Checked arithmetic.

Every operation passes its result through `checked`, so a value is never infinite,
never undefined, and never the negative zero.
-/

namespace Calculator

/-- A result as a value: zero loses its sign, and what is not finite is a fault. The
operation is described only if it is needed for the fault. -/
def checked (details : Unit → String) (result : Float) : Except Fault Float :=
  if result == 0.0 then .ok 0.0
  else if result.isFinite then .ok result
  else .error (.notFinite (details ()))

/-- The result of a binary operation before it is checked. A zero divisor, of either
sign, is a fault of its own. -/
def Operator.result (op : Operator) (left right : Float) : Except Fault Float :=
  match op with
  | .add => .ok (left + right)
  | .sub => .ok (left - right)
  | .mul | .impliedMul => .ok (left * right)
  | .div => if right == 0.0 then .error .divisionByZero else .ok (left / right)
  | .mod => if right == 0.0 then .error .moduloByZero else .ok (remainder left right)
  | .pow => .ok (left.pow right)

/-- The value of a binary operation. -/
def Operator.apply (op : Operator) (left right : Float) : Except Fault Float := do
  checked (fun _ => Numeral.write left ++ " " ++ op.symbol ++ " " ++ Numeral.write right)
    (← op.result left right)

/-- The value of a negation. -/
def negated (x : Float) : Except Fault Float :=
  checked (fun _ => "-" ++ Numeral.write x) (-x)

end Calculator
