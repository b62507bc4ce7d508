import Calculator.Assembly
import Calculator.Bindings
import Calculator.Token.Scan
import Calculator.Tree

/-!
Statements: expressions and assignments, evaluated in bindings.

`evaluate` reads the bindings and gives the tree of a statement; `Bindings.record`
is what the statement then writes. `execute` does both, so a statement that fails
writes nothing.
-/

namespace Calculator

/-- Why a text has no value. -/
inductive EvalError where
  | scan (error : ScanError)
  | parse (error : ParseError)
deriving DecidableEq

/-- The byte of the text to blame. -/
def EvalError.position : EvalError → Nat
  | .scan e => e.position
  | .parse e => e.position

/-- The message of an error. -/
def EvalError.message : EvalError → String
  | .scan e => "Lexer error: " ++ e.message
  | .parse e => "Parser error: " ++ e.message

/-- Evaluates every part of an expression as it is built. -/
def Tree.builder (bindings : Bindings) : Builder Tree where
  number value position := .number value position
  reference name position := do
    return .reference name (← bindings.read name) position
  callable name :=
    if (Function.ofName? name).isSome then .ok () else .error (.unknownFunction name)
  call name argument position := do
    let value ← Calculator.call name (argument.map Tree.value).toList
    return .call name argument.toList value position
  negation operand position := do
    return .negation operand (← negated operand.value) position
  operation op left right position := do
    return .operation op left right (← op.apply left.value right.value) position
  assignment name right position := .assignment name right right.value position

/-- The tree of the statement that tokens make. -/
def evaluateTokens (tokens : List Lexeme) (bindings : Bindings) :
    Except ParseError Tree :=
  assembleStatement (Tree.builder bindings) tokens

/-- The tree of the statement that a text makes. -/
def evaluate (text : String) (bindings : Bindings) : Except EvalError Tree := do
  let tokens ← (scan text).mapError .scan
  (evaluateTokens tokens bindings).mapError .parse

/-- What an evaluated statement writes: an assignment binds its name, and nothing
else writes. -/
def Bindings.record (bindings : Bindings) : Tree → Bindings
  | .assignment name _ value _ => bindings.set name value
  | _ => bindings

/-- The bindings after an evaluation, which are unchanged if it failed. -/
def Bindings.after {ε : Type} (bindings : Bindings) (result : Except ε Tree) : Bindings :=
  match result with
  | .ok tree => bindings.record tree
  | .error _ => bindings

/-- Evaluates the statement that a text makes, and writes what it assigns. -/
def execute (text : String) (bindings : Bindings) : Except EvalError Tree × Bindings :=
  let result := evaluate text bindings
  (result, bindings.after result)

end Calculator
