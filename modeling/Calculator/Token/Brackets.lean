import Calculator.Token

/-!
Matching parentheses.

Parentheses are matched from left to right: a closing one closes the last that is still
open. `brackets` keeps the positions of those that find no partner.
-/

namespace Calculator

/-- The parentheses without a partner so far: `opened` are the open ones, the last one
first, and `stray` the closing ones that closed nothing, the first one first. -/
structure Brackets where
  opened : List Nat
  stray : List Nat
deriving DecidableEq, Repr

namespace Brackets

/-- Matches one more token. -/
def take (brackets : Brackets) (lexeme : Lexeme) : Brackets :=
  match lexeme.token, brackets.opened with
  | .openParen, opened => { brackets with opened := lexeme.position :: opened }
  | .closeParen, [] => { brackets with stray := brackets.stray ++ [lexeme.position] }
  | .closeParen, _ :: opened => { brackets with opened }
  | _, _ => brackets

end Brackets

/-- The parentheses of a list of tokens that have no partner. -/
def brackets (tokens : List Lexeme) : Brackets :=
  tokens.foldl Brackets.take ⟨[], []⟩

end Calculator
