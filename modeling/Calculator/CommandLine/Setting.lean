import Calculator.Statement
import Calculator.WhiteSpace

/-!
Settings: variables given on the command line, written `NAME=VALUE`.

The value is any statement of the language, evaluated with the constants alone.
-/

namespace Calculator.CommandLine

/-- Why a text is no setting. -/
inductive SettingError where
  | missingValue (text : String)
  | invalidName (name : String)
  | value (error : EvalError)
deriving DecidableEq

/-- The message of an error. -/
def SettingError.message : SettingError → String
  | .missingValue text => "expected NAME=VALUE, found `" ++ text ++ "`"
  | .invalidName name => "`" ++ name ++ "` is not a valid variable name"
  | .value e => e.message

/-- The variable and the value of a setting. The text is cut at its first equals
sign. -/
def readSetting (text : String) : Except SettingError (String × Float) :=
  match text.toList.span (· ≠ '=') with
  | (_, []) => .error (.missingValue text)
  | (left, _ :: right) =>
    let name := trim left
    if name ≠ [] ∧ name.all Char.isAlpha then
      match evaluate (String.ofList right) .initial with
      | .ok tree => .ok (String.ofList name, tree.value)
      | .error e => .error (.value e)
    else .error (.invalidName (String.ofList name))

end Calculator.CommandLine
