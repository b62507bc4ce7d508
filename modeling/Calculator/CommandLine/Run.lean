import Calculator.CommandLine.Arguments
import Calculator.CommandLine.Caret
import Calculator.Plot
import Calculator.Tree.Outline

/-!
Running a command.

A run is a pure function of the command: it says what is written to the two outputs
and whether it went well. The first failure ends a run and keeps what was written
before it.
-/

namespace Calculator.CommandLine

/-- What a run writes, and whether it went well. -/
structure Outcome where
  success : Bool
  output : String
  errors : String
deriving DecidableEq, Repr

/-- The indentation of the trees of an evaluation. -/
def treeIndent : String := "  "

/-- Evaluates statements in turn, each in the bindings that the ones before it
left. `output` is what has been written before. -/
def runStatements (showTree : Bool) (bindings : Bindings) (output : String) :
    List String → Outcome
  | [] => ⟨true, output, ""⟩
  | statement :: rest =>
    match execute statement bindings with
    | (.ok tree, bindings) =>
      let outline := if showTree then tree.outline treeIndent else ""
      runStatements showTree bindings
        (output ++ Numeral.write tree.value ++ "\n" ++ outline) rest
    | (.error e, _) =>
      ⟨false, output, pointer statement e.position ++ "\nFailed to evaluate `" ++
        statement ++ "`: " ++ e.message ++ "\n"⟩

/-- The table of points, one line each. -/
def pointTable (points : List (Float × Float)) : String :=
  points.foldl
    (fun table p => table ++ Numeral.write p.1 ++ "\t" ++ Numeral.write p.2 ++ "\n") "x\ty\n"

/-- Samples a function. The form of the function is looked at first, then the range,
then the points. -/
def runPlot (request : PlotRequest) : Outcome :=
  match plotBody? request.function with
  | none => ⟨false, "", PlotError.missingPrefix.message ++ "\n"⟩
  | some body =>
    match Grid.ofBounds request.first request.last request.step with
    | .error e => ⟨false, "", (PlotError.invalidRange e).message ++ "\n"⟩
    | .ok grid =>
      match (sample body grid (Bindings.initial.setAll request.settings)).1 with
      | .ok points => ⟨true, pointTable points, ""⟩
      | .error e =>
        ⟨false, "", "Failed to plot `" ++ request.function ++ "`: " ++ e.message ++ "\n"⟩

/-- A line of a listing: a name in a column of four characters, and what it stands
for. -/
def listingLine (name about : String) : String :=
  "  " ++ String.ofList (name.toList.rightpad 4 ' ') ++ " " ++ about ++ "\n"

/-- The listing of operators, functions and constants. -/
def listing : String :=
  "Operators: + - * / % ^, parentheses, assignment (x = 10) and implied " ++
    "multiplication (2x).\n" ++
  "Functions (one argument, angles in radians):\n" ++
  String.join (Function.all.map fun f => listingLine f.name f.about) ++
  "Constants:\n" ++
  String.join (constants.map fun c => listingLine c.1 (Numeral.write c.2))

/-- Runs a command. -/
def run : Command → Outcome
  | .eval request =>
    runStatements request.showTree (Bindings.initial.setAll request.settings) ""
      request.statements
  | .plot request => runPlot request
  | .functions => ⟨true, listing, ""⟩

end Calculator.CommandLine
