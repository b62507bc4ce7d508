import Calculator.Assembly

/-!
Expressions before they are evaluated.

A `Formula` keeps what a statement says and where, and no values. `Formula.builder`
assembles tokens into one without carrying anything out; `Formula.build` then carries
out a formula with any other builder.
-/

namespace Calculator

/-- What a statement says. Parentheses leave no part. -/
inductive Formula where
  | number (value : Float) (position : Nat)
  | reference (name : String) (position : Nat)
  | assignment (name : String) (right : Formula) (position : Nat)
  | negation (operand : Formula) (position : Nat)
  | operation (operator : Operator) (left right : Formula) (position : Nat)
  | call (name : String) (argument : Formula) (position : Nat)
  | emptyCall (name : String) (position : Nat)
deriving DecidableEq

namespace Formula

/-- Keeps every part as it is; nothing fails. -/
def builder : Builder Formula where
  number := .number
  reference name position := .ok (.reference name position)
  callable _ := .ok ()
  call name argument position :=
    match argument with
    | none => .ok (.emptyCall name position)
    | some argument => .ok (.call name argument position)
  negation operand position := .ok (.negation operand position)
  operation op left right position := .ok (.operation op left right position)
  assignment := .assignment

variable {α : Type}

/-- Carries out a formula from left to right, the operands of an operation before the
operation. The name of a call is looked at before its argument. -/
def build (b : Builder α) : Formula → Except ParseError α
  | .number value position => .ok (b.number value position)
  | .reference name position => Fault.locate position (b.reference name position)
  | .assignment name right position => do
    return b.assignment name (← right.build b) position
  | .negation operand position => do
    Fault.locate position (b.negation (← operand.build b) position)
  | .operation op left right position => do
    let left ← left.build b
    let right ← right.build b
    Fault.locate position (b.operation op left right position)
  | .call name argument position => do
    Fault.locate position (b.callable name)
    let argument ← argument.build b
    Fault.locate position (b.call name (some argument) position)
  | .emptyCall name position => do
    Fault.locate position (b.callable name)
    Fault.locate position (b.call name none position)

end Formula

end Calculator
