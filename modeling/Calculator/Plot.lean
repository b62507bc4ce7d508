import Calculator.Grid
import Calculator.Statement
import Calculator.WhiteSpace

/-!
Plots: a statement evaluated at the points of a grid.

`plotBody?` takes the right-hand side out of a function written `y = f(x)`. `sample`
binds the variable `x` to each point in turn and evaluates; the first failure ends it.
The text is scanned once, since what it means at a point depends only on its tokens.
-/

namespace Calculator

/-- Why there is no plot. -/
inductive PlotError where
  | invalidRange (error : GridError)
  | missingPrefix
  | atPoint (x : Float) (error : EvalError)
deriving DecidableEq

/-- The message of an error. -/
def PlotError.message : PlotError → String
  | .invalidRange e => "Invalid range: " ++ e.details ++ "."
  | .missingPrefix => "Function must be in the format y = f(x)."
  | .atPoint x e => "Error at x = " ++ Numeral.write x ++ ": " ++ e.message

/-- The right-hand side of a function written `y = f(x)`, without the white space
around it. -/
def plotBody? (function : String) : Option String :=
  match trim function.toList with
  | 'y' :: rest =>
    match trimStart rest with
    | '=' :: body => some (String.ofList (trim body))
    | _ => none
  | _ => none

/-- The variable that runs over the points. -/
def sampleVariable : String := "x"

/-- Evaluates tokens at the points from `index` on, looking at no more than `budget`
indices. What a statement writes stays for the points after it; `done` holds the
points before. -/
def sampleFrom (grid : Grid) (tokens : List Lexeme) (index : Nat) (bindings : Bindings)
    (done : Array (Float × Float)) :
    Nat → Except PlotError (List (Float × Float)) × Bindings
  | 0 => (.ok done.toList, bindings)
  | budget + 1 =>
    let x := grid.point index
    if grid.covers x then
      let bindings := bindings.set sampleVariable x
      match evaluateTokens tokens bindings with
      | .ok tree =>
        sampleFrom grid tokens (index + 1) (bindings.record tree) (done.push (x, tree.value))
          budget
      | .error e => (.error (.atPoint x (.parse e)), bindings)
    else (.ok done.toList, bindings)

/-- The points of a statement over a grid, and the bindings afterwards. A text that
cannot be scanned fails at the first point. -/
def sample (text : String) (grid : Grid) (bindings : Bindings) :
    Except PlotError (List (Float × Float)) × Bindings :=
  match scan text with
  | .error e => (.error (.atPoint grid.first (.scan e)), bindings)
  | .ok tokens => sampleFrom grid tokens 0 bindings #[] Grid.indexCount

end Calculator
