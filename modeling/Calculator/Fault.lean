/-!
Faults: the ways in which evaluating an expression can fail.
-/

namespace Calculator

/-- Why an expression has no value. -/
inductive Fault where
  | unknownVariable (name : String)
  | unknownFunction (name : String)
  | argumentCount (name : String) (expected found : Nat)
  | divisionByZero
  | moduloByZero
  | invalidArgument (details : String)
  | notFinite (details : String)
deriving DecidableEq, Repr

/-- The message of a fault. -/
def Fault.message : Fault → String
  | .unknownVariable name => "Unknown variable '" ++ name ++ "'."
  | .unknownFunction name => "Unknown function '" ++ name ++ "'."
  | .argumentCount name expected found =>
    "Function '" ++ name ++ "' expects " ++ toString expected ++
      " argument(s) but got " ++ toString found ++ "."
  | .divisionByZero => "Division by zero."
  | .moduloByZero => "Modulo by zero."
  | .invalidArgument details => "Invalid argument: " ++ details ++ "."
  | .notFinite details => "Result is not a finite number: " ++ details ++ "."

end Calculator
