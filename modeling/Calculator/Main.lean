import Calculator.CommandLine.Run

/-!
The program: reads its arguments, runs the command, and writes what the run says.
-/

open Calculator CommandLine

/-- What is shown when help is asked for. -/
def helpText : String :=
  "Evaluates arithmetic expressions and samples functions.\n\n" ++
  "Usage: calculator [-v] COMMAND\n\n" ++
  "Commands:\n" ++
  "  eval [-t] [--set NAME=VALUE]... STATEMENT...\n" ++
  "  plot [--x-min X] [--x-max X] [--step X] [--set NAME=VALUE]... FUNCTION\n" ++
  "  functions\n" ++
  "  help [COMMAND]\n"

/-- The version of the program. -/
def versionText : String := "calculator 1.0.0\n"

/-- What a refusal says. -/
def refusalText : Refusal → String
  | .help | .nothingGiven => helpText
  | .version => versionText
  | .missingCommand => "error: a command is required\n\n" ++ helpText
  | .unknownCommand => "error: unrecognized command\n\n" ++ helpText
  | .missingArgument => "error: a required argument was not provided\n\n" ++ helpText
  | .unknownArgument => "error: unexpected argument\n\n" ++ helpText
  | .missingValue => "error: a value is required for an option\n\n" ++ helpText
  | .unexpectedValue => "error: a flag takes no value\n\n" ++ helpText
  | .invalidValue => "error: invalid value for an option\n\n" ++ helpText
  | .repeatedOption => "error: an option cannot be used more than once\n\n" ++ helpText

def main (arguments : List String) : IO UInt32 := do
  let output ← IO.getStdout
  let errors ← IO.getStderr
  match readCommand arguments with
  | .ok command =>
    let outcome := run command
    output.putStr outcome.output
    errors.putStr outcome.errors
    return if outcome.success then 0 else 1
  | .error refusal =>
    if refusal = .help ∨ refusal = .version then
      output.putStr (refusalText refusal)
      return 0
    else
      errors.putStr (refusalText refusal)
      return 2
