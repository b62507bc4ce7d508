import Calculator.Token

/-!
From text to lexemes.

A text is cut from left to right into the longest slices of one class: white space,
runs of letters, numerals (`startsNumeral`, `inNumeral`) and single symbols. `scan`
gives one lexeme for each slice that is not white space, and a last one at the end
of the text; the first place where no slice begins is a `ScanError`.

Only characters of one byte occur in slices, so positions count characters and bytes
alike.
-/

namespace Calculator

/-- Why no slice begins at a place. -/
inductive ScanError.Cause where
  | invalidCharacter (character : Char)
  | malformedNumber (literal : String)
deriving DecidableEq, Repr

/-- A text that cannot be cut into slices, with the first place where it fails. -/
structure ScanError where
  cause : ScanError.Cause
  position : Nat
deriving DecidableEq, Repr

/-- The words of the message for a cause. -/
def ScanError.Cause.describe : ScanError.Cause → String
  | .invalidCharacter character => "Invalid character '" ++ character.toString ++ "'."
  | .malformedNumber literal => "Malformed number '" ++ literal ++ "'."

/-- The message of a scanning error. -/
def ScanError.message (e : ScanError) : String :=
  "Error at position " ++ toString e.position ++ ": " ++ e.cause.describe

namespace Token

/-- The white space between tokens. -/
def isBlank (c : Char) : Bool :=
  c == ' ' || c == '\t' || c == '\r' || c == '\n' || c == '\x0c'

/-- The characters of numerals. -/
def inNumeral (c : Char) : Bool :=
  c.isDigit || c == '.'

/-- A numeral begins with a digit, or with a point before a digit. -/
def startsNumeral (c : Char) (rest : List Char) : Bool :=
  c.isDigit || c == '.' && rest.head?.any Char.isDigit

/-- The token of a whole run of digits and points: the nearest double, unless the
run holds two points or is out of the range of the doubles. -/
def ofNumeral (run : List Char) : Except ScanError.Cause Token :=
  let value := (Numeral.plain run).toFloat
  if run.count '.' ≤ 1 ∧ value.isFinite then .ok (.number value)
  else .error (.malformedNumber (String.ofList run))

/-- The lexemes of a text that begins at `position`. -/
def scanFrom (position : Nat) : List Char → Except ScanError (List Lexeme)
  | [] => .ok [⟨.endOfInput, position⟩]
  | c :: rest =>
    if isBlank c then scanFrom (position + 1) rest
    else if c.isAlpha then do
      let name := c :: rest.takeWhile Char.isAlpha
      let lexemes ← scanFrom (position + name.length) (rest.dropWhile Char.isAlpha)
      return ⟨.identifier (String.ofList name), position⟩ :: lexemes
    else if startsNumeral c rest then do
      let run := c :: rest.takeWhile inNumeral
      let token ← (ofNumeral run).mapError fun cause => ⟨cause, position⟩
      let lexemes ← scanFrom (position + run.length) (rest.dropWhile inNumeral)
      return ⟨token, position⟩ :: lexemes
    else
      match ofSymbol? c with
      | some token => do
        let lexemes ← scanFrom (position + 1) rest
        return ⟨token, position⟩ :: lexemes
      | none => .error ⟨.invalidCharacter c, position⟩
termination_by text => text.length
decreasing_by
  · simp
  · exact Nat.lt_succ_of_le (List.dropWhile_sublist _).length_le
  · exact Nat.lt_succ_of_le (List.dropWhile_sublist _).length_le
  · simp

end Token

/-- The lexemes of a text, closed by the end of input. -/
def scan (text : String) : Except ScanError (List Lexeme) :=
  Token.scanFrom 0 text.toList

end Calculator
