import Calculator.Statement

/-!
Sessions: texts executed in turn.

Each text is executed in the bindings that the ones before it left. A text that fails does
not end a session; it leaves the bindings as they were.
-/

namespace Calculator

/-- Whether a tree is an assignment at its root. -/
def Tree.isAssignment : Tree → Bool
  | .assignment _ _ _ _ => true
  | _ => false

/-- Whether an evaluation went well and was an assignment. -/
def assigns {ε : Type} : Except ε Tree → Bool
  | .ok tree => tree.isAssignment
  | .error _ => false

/-- The answers to texts executed in turn, and the bindings at the end. -/
def session (bindings : Bindings) : List String → List (Except EvalError Tree) × Bindings
  | [] => ([], bindings)
  | text :: texts =>
    let (answer, bindings) := execute text bindings
    let (answers, bindings) := session bindings texts
    (answer :: answers, bindings)

end Calculator
