import Calculator.Decimal.Shortest

/-!
Numerals: the texts of doubles.

`Numeral.write` gives the fewest digits that identify a double, written out without
an exponent. `Numeral.plain` is the decimal that a run of digits with at most one
point spells; `Numeral.read?` also takes a sign, an exponent and the names of the
values that are no finite numbers.
-/

namespace Calculator.Numeral

/-- The sign in front of a numeral. -/
def sign (negative : Bool) : String :=
  if negative then "-" else ""

/-- The text of a double. Negative zero keeps its sign. -/
def write (x : Float) : String :=
  match Form.ofFloat x with
  | .notANumber => "NaN"
  | .infinite negative => sign negative ++ "inf"
  | .finite negative m => sign negative ++ String.ofList m.shortest.plain

/-! ### Reading -/

/-- The decimal spelled by digits with at most one point among them. -/
def plain (run : List Char) : Decimal :=
  let whole := run.takeWhile (· ≠ '.')
  let fraction := (run.dropWhile (· ≠ '.')).drop 1
  ⟨Nat.ofDigitChars 10 (whole ++ fraction) 0, -fraction.length⟩

/-- A sign, if there is one, and what follows it. -/
def splitSign : List Char → Bool × List Char
  | '-' :: rest => (true, rest)
  | '+' :: rest => (false, rest)
  | rest => (false, rest)

/-- An exponent: empty, or the letter `e` with an optional sign and digits. -/
def exponent? : List Char → Option Int
  | [] => some 0
  | c :: rest =>
    let (negative, digits) := splitSign rest
    if c.toLower = 'e' ∧ digits ≠ [] ∧ digits.all Char.isDigit then
      let n : Int := Nat.ofDigitChars 10 digits 0
      some (if negative then -n else n)
    else none

/-- The double spelled by an unsigned numeral: digits with at most one point and an
optional exponent, or a name in letters of either case. -/
def unsigned? (text : List Char) : Option Float :=
  match String.ofList (text.map Char.toLower) with
  | "inf" | "infinity" => some (Float.ofBits (UInt64.ofNat Magnitude.infinityPattern))
  | "nan" => some (0.0 / 0.0)
  | _ =>
    let run := text.takeWhile fun c => c.isDigit || c == '.'
    if run.any Char.isDigit ∧ run.count '.' ≤ 1 then
      (exponent? (text.drop run.length)).map fun e =>
        let d := plain run
        (⟨d.coefficient, d.exponent + e⟩ : Decimal).toFloat
    else none

/-- The double spelled by a numeral with an optional sign. -/
def read? (text : String) : Option Float :=
  let (negative, rest) := splitSign text.toList
  (unsigned? rest).map fun x => if negative then -x else x

end Calculator.Numeral
