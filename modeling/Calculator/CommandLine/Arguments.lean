import Calculator.CommandLine.Setting
import Calculator.Numeral

/-!
The arguments of the program.

`readCommand` turns arguments into a `Command`, or says with a `Refusal` why nothing
is run. Flags and parameters are read up to the point where texts begin: a statement
makes everything after it a statement, and so does a lone `--`. A text may begin with
a hyphen as long as a text is still wanted and it is not made of known flags.

The value of a parameter is looked at when the next argument is recognised. So of two
faulty arguments the first one is reported, except that an argument which is not
recognised goes before the value in front of it.
-/

namespace Calculator.CommandLine

/-- Why the arguments are not run. Asking for help or for the version is among the
reasons. -/
inductive Refusal where
  | help
  | version
  | nothingGiven
  | missingCommand
  | unknownCommand
  | missingArgument
  | unknownArgument
  | missingValue
  | unexpectedValue
  | invalidValue
  | repeatedOption
deriving DecidableEq, Repr

/-! ### Words -/

/-- The form of an argument, before it is known which flags there are. -/
inductive Word where
  | separator
  | long (name : List Char) (value : Option (List Char))
  | short (letters : List Char)
  | plain
deriving DecidableEq, Repr

/-- The form of an argument. A single hyphen is plain. -/
def Word.ofText (text : String) : Word :=
  match text.toList with
  | ['-', '-'] => .separator
  | '-' :: '-' :: rest =>
    match rest.span (· ≠ '=') with
    | (name, []) => .long name none
    | (name, _ :: value) => .long name (some value)
  | '-' :: letter :: rest => .short (letter :: rest)
  | _ => .plain

/-- The digits after a hyphen that make a negative number: a digit first, at most one
point, and digits alone in an exponent. -/
def isNumberAfterSign (letters : List Char) : Bool :=
  let (mantissa, exponent) := letters.span (· ≠ 'e')
  mantissa.head?.any Char.isDigit && mantissa.all Token.inNumeral &&
    mantissa.count '.' ≤ 1 &&
    match exponent with
    | [] => true
    | _ :: digits => !digits.isEmpty && digits.all Char.isDigit

/-! ### Flags and parameters -/

/-- What is switched on by being named. -/
inductive Flag where
  | help | version | verbose | tree
deriving DecidableEq, Repr

/-- The long name of a flag. -/
def Flag.name : Flag → String
  | .help => "help"
  | .version => "version"
  | .verbose => "verbose"
  | .tree => "tree"

/-- The letter of a flag. -/
def Flag.letter : Flag → Char
  | .help => 'h'
  | .version => 'V'
  | .verbose => 'v'
  | .tree => 't'

/-- What is named with a value. -/
inductive Parameter where
  | set | xMin | xMax | step
deriving DecidableEq, Repr

/-- The name of a parameter. -/
def Parameter.name : Parameter → String
  | .set => "set"
  | .xMin => "x-min"
  | .xMax => "x-max"
  | .step => "step"

/-- The parameters whose value may be a negative number even where no text is
wanted. -/
def Parameter.takesNegative : Parameter → Bool
  | .xMin | .xMax => true
  | .set | .step => false

/-- What a command accepts, and what it makes of it. -/
structure Schema (σ : Type) where
  flags : List Flag
  parameters : List Parameter
  /-- Whether a text is still wanted. -/
  wantsText : σ → Bool
  /-- Whether everything after a text is a text. -/
  textsOnly : Bool
  switch : Flag → σ → Except Refusal σ
  assign : Parameter → String → σ → Except Refusal σ
  addText : String → σ → σ

/-- What the parameter before the next argument waits for: its value, or a look at
its value. -/
inductive Awaiting where
  | nothing
  | value (parameter : Parameter)
  | look (parameter : Parameter) (text : String)
deriving DecidableEq, Repr

/-- The arguments read so far. -/
structure Reading (σ : Type) where
  literal : Bool
  awaiting : Awaiting
  result : σ

namespace Schema

variable {σ : Type}

/-- The flag with a letter. -/
def flag? (schema : Schema σ) (letter : Char) : Option Flag :=
  schema.flags.find? fun f => f.letter = letter

/-- The result once the parameter before has been looked at. -/
def settled (schema : Schema σ) (r : Reading σ) : Except Refusal σ :=
  match r.awaiting with
  | .nothing => .ok r.result
  | .value _ => .error .missingValue
  | .look parameter text => schema.assign parameter text r.result

/-- Takes a flag. -/
def takeFlag (schema : Schema σ) (r : Reading σ) (flag : Flag) : Except Refusal (Reading σ) := do
  return { r with awaiting := .nothing, result := ← schema.switch flag (← schema.settled r) }

/-- Takes a letter of an argument like `-tv`. -/
def takeLetter (schema : Schema σ) (r : Reading σ) (letter : Char) :
    Except Refusal (Reading σ) :=
  match schema.flag? letter with
  | some flag => schema.takeFlag r flag
  | none => .error .unknownArgument

/-- Takes an argument that names neither a flag nor a parameter: the value of the
parameter before it, or a text. -/
def takeText (schema : Schema σ) (r : Reading σ) (text : String) :
    Except Refusal (Reading σ) :=
  match r.literal, r.awaiting with
  | false, .value parameter => .ok { r with awaiting := .look parameter text }
  | _, _ =>
    if schema.wantsText r.result then do
      let result := schema.addText text (← schema.settled r)
      return ⟨r.literal || schema.textsOnly, .nothing, result⟩
    else .error .unknownArgument

/-- Takes an argument `--name` or `--name=value`. -/
def takeLong (schema : Schema σ) (r : Reading σ) (text : String) (name : String)
    (value : Option String) : Except Refusal (Reading σ) :=
  match schema.flags.find? (·.name = name), schema.parameters.find? (·.name = name), value with
  | some flag, _, none => schema.takeFlag r flag
  | some _, _, some _ => .error .unexpectedValue
  | none, some parameter, some value => do
    let result ← schema.assign parameter value (← schema.settled r)
    return { r with awaiting := .nothing, result }
  | none, some parameter, none => do
    let result ← schema.settled r
    return { r with awaiting := .value parameter, result }
  | none, none, _ =>
    if schema.wantsText r.result then schema.takeText r text else .error .unknownArgument

/-- Whether letters after a hyphen are a text: they are the negative number that the
parameter before may take, or a text is wanted and not all of them are known. -/
def isText (schema : Schema σ) (r : Reading σ) (letters : List Char) : Bool :=
  (match r.awaiting with
    | .value parameter => parameter.takesNegative && isNumberAfterSign letters
    | _ => false) ||
  schema.wantsText r.result && letters.any fun c => (schema.flag? c).isNone

/-- Takes one argument. -/
def take (schema : Schema σ) (r : Reading σ) (text : String) : Except Refusal (Reading σ) :=
  if r.literal then schema.takeText r text
  else
    match Word.ofText text with
    | .separator => .ok { r with literal := true }
    | .long name value =>
      schema.takeLong r text (String.ofList name) (value.map String.ofList)
    | .short letters =>
      if schema.isText r letters then schema.takeText r text
      else letters.foldlM schema.takeLetter r
    | .plain => schema.takeText r text

/-- Takes all arguments of a command. -/
def read (schema : Schema σ) (start : σ) (arguments : List String) : Except Refusal σ := do
  schema.settled (← arguments.foldlM schema.take ⟨false, .nothing, start⟩)

end Schema

/-! ### Commands -/

/-- Statements to be evaluated one after the other. -/
structure EvalRequest where
  showTree : Bool
  settings : List (String × Float)
  statements : List String

/-- A function to be sampled. -/
structure PlotRequest where
  first : Float
  last : Float
  step : Float
  settings : List (String × Float)
  function : String

/-- What the program is asked to do. -/
inductive Command where
  | eval (request : EvalRequest)
  | plot (request : PlotRequest)
  | functions

/-- The flags that every command has. -/
def commonFlag {σ : Type} (flag : Flag) (result : σ) : Except Refusal σ :=
  match flag with
  | .help => .error .help
  | .version => .error .version
  | .verbose | .tree => .ok result

/-- The value of a parameter that is a number. -/
def readNumber (text : String) : Except Refusal Float :=
  match Numeral.read? text with
  | some x => .ok x
  | none => .error .invalidValue

/-- The value of a parameter that may be given once. -/
def readOnce (before : Option Float) (text : String) : Except Refusal (Option Float) :=
  match before with
  | none => some <$> readNumber text
  | some _ => .error .repeatedOption

/-- The settings with one more. -/
def addSetting (settings : List (String × Float)) (text : String) :
    Except Refusal (List (String × Float)) :=
  match readSetting text with
  | .ok setting => .ok (settings ++ [setting])
  | .error _ => .error .invalidValue

/-- The arguments of an evaluation. Everything after the first statement is one. -/
def evalSchema : Schema EvalRequest where
  flags := [.tree, .verbose, .help]
  parameters := [.set]
  wantsText _ := true
  textsOnly := true
  switch flag r :=
    match flag, r.showTree with
    | .tree, true => .error .repeatedOption
    | .tree, false => .ok { r with showTree := true }
    | _, _ => commonFlag flag r
  assign _ text r := do return { r with settings := ← addSetting r.settings text }
  addText text r := { r with statements := r.statements ++ [text] }

/-- What has been read of a plot. -/
structure PlotReading where
  first : Option Float
  last : Option Float
  step : Option Float
  settings : List (String × Float)
  function : Option String

/-- The arguments of a plot. -/
def plotSchema : Schema PlotReading where
  flags := [.verbose, .help]
  parameters := [.set, .xMin, .xMax, .step]
  wantsText r := r.function.isNone
  textsOnly := false
  switch := commonFlag
  assign parameter text r := do
    match parameter with
    | .set => return { r with settings := ← addSetting r.settings text }
    | .xMin => return { r with first := ← readOnce r.first text }
    | .xMax => return { r with last := ← readOnce r.last text }
    | .step => return { r with step := ← readOnce r.step text }
  addText text r := { r with function := some text }

/-- The arguments of a listing: only flags. -/
def functionsSchema : Schema Unit where
  flags := [.verbose, .help]
  parameters := []
  wantsText _ := false
  textsOnly := false
  switch := commonFlag
  assign _ _ r := .ok r
  addText _ r := r

/-- Statements are required. -/
def readEval (arguments : List String) : Except Refusal Command := do
  let request ← evalSchema.read ⟨false, [], []⟩ arguments
  if request.statements.isEmpty then throw .missingArgument else return .eval request

/-- A function is required; the range is from -10 to 10 in steps of 0.1. -/
def readPlot (arguments : List String) : Except Refusal Command := do
  let r ← plotSchema.read ⟨none, none, none, [], none⟩ arguments
  match r.function with
  | none => throw .missingArgument
  | some function =>
    return .plot ⟨r.first.getD (-10.0), r.last.getD 10.0, r.step.getD 0.1, r.settings, function⟩

/-- The names of commands. -/
def commandNames : List String :=
  ["eval", "plot", "functions", "help"]

/-- Help may be asked for about one command. -/
def readHelp : List String → Refusal
  | [] => .help
  | [name] => if name ∈ commandNames then .help else .unknownCommand
  | _ => .unknownCommand

/-- The arguments in front of the command: only flags. -/
def leadingSchema : Schema Unit where
  flags := [.verbose, .help, .version]
  parameters := []
  wantsText _ := false
  textsOnly := false
  switch := commonFlag
  assign _ _ r := .ok r
  addText _ r := r

/-- The command that arguments name, where `flagged` says whether a flag came before
and `literal` whether a lone `--` did. -/
def readFrom (flagged literal : Bool) : List String → Except Refusal Command
  | [] => .error (if flagged then .missingCommand else .nothingGiven)
  | text :: rest =>
    match literal, Word.ofText text with
    | false, .separator => readFrom flagged true rest
    | false, .long _ _ | false, .short _ => do
      discard <| leadingSchema.read () [text]
      readFrom true false rest
    | false, .plain =>
      match text with
      | "eval" => readEval rest
      | "plot" => readPlot rest
      | "functions" => do
        functionsSchema.read () rest
        return .functions
      | "help" => .error (readHelp rest)
      | _ => .error .unknownCommand
    | true, _ =>
      .error (if text ∈ commandNames then .unknownArgument else .unknownCommand)

/-- The command that the arguments of the program name. -/
def readCommand (arguments : List String) : Except Refusal Command :=
  readFrom false false arguments

end Calculator.CommandLine
