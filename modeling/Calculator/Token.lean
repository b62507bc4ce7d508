import Calculator.Numeral
import Calculator.Operator

/-!
Tokens: the words that statements are made of.

A `Lexeme` is a token with the byte at which its text begins. `Token.text` is the
spelling that messages show.
-/

namespace Calculator

/-- The words of a statement. `blank` stands for a stretch of white space, which
scanning drops; `endOfInput` closes every scanned text. -/
inductive Token where
  | number (value : Float)
  | identifier (name : String)
  | plus | minus | star | slash | percent | caret
  | openParen | closeParen
  | assign
  | blank
  | endOfInput
deriving DecidableEq

/-- A token and the byte of the text at which it begins. -/
structure Lexeme where
  token : Token
  position : Nat
deriving DecidableEq

namespace Token

/-- The spelling of a token in messages. -/
def text : Token → String
  | .number value => Numeral.write value
  | .identifier name => name
  | .plus => "+"
  | .minus => "-"
  | .star => "*"
  | .slash => "/"
  | .percent => "%"
  | .caret => "^"
  | .openParen => "("
  | .closeParen => ")"
  | .assign => "="
  | .blank => " "
  | .endOfInput => "end of input"

/-- The tokens that can begin an operand without a sign. After a complete operand
they imply a product. -/
def startsOperand : Token → Bool
  | .number _ | .identifier _ | .openParen => true
  | _ => false

/-- The tokens that can end an operand. -/
def endsOperand : Token → Bool
  | .number _ | .identifier _ | .closeParen => true
  | _ => false

/-- Whether two adjacent tokens stand between the factors of an implied product. A
name before a parenthesis is called instead. -/
def impliesProduct : Token → Token → Bool
  | .identifier _, .openParen => false
  | before, after => before.endsOperand && after.startsOperand

/-- The operator that a token writes. -/
def operator? : Token → Option Operator
  | .plus => some .add
  | .minus => some .sub
  | .star => some .mul
  | .slash => some .div
  | .percent => some .mod
  | .caret => some .pow
  | _ => none

/-- The token that writes an operator; an implied product is spelled out. -/
def ofOperator : Operator → Token
  | .add => .plus
  | .sub => .minus
  | .mul | .impliedMul => .star
  | .div => .slash
  | .mod => .percent
  | .pow => .caret

/-- The token of a single character. -/
def ofSymbol? : Char → Option Token
  | '+' => some .plus
  | '-' => some .minus
  | '*' => some .star
  | '/' => some .slash
  | '%' => some .percent
  | '^' => some .caret
  | '(' => some .openParen
  | ')' => some .closeParen
  | '=' => some .assign
  | _ => none

end Token

end Calculator
