import Calculator.Assembly

/-!
Recursive descent.

The grammar can be read without a state as well, by calls for the parts of an expression: a sum
calls for products, a product for its factors, and so on down to the primaries, whose parentheses
hold a sum again. `read` does this for every level. Its calls do not always get shorter lists of
tokens, and nothing in them says that they come to an end. So a descent is given a depth, the
number of calls that may be open at a time, and where it would go deeper there is no answer.
-/

namespace Calculator

/-- An answer, or none where the depth is not enough. -/
abbrev Descent (β : Type) := ExceptT ParseError Option β

namespace Descent

variable {α β : Type}

/-- The depth is not enough. -/
def exhausted : Descent β :=
  ExceptT.mk none

/-- An answer that takes no calls. -/
def of (answer : Except ParseError β) : Descent β :=
  ExceptT.mk (some answer)

/-- Takes the parenthesis that closes the one at `opened`. -/
def close (opened : Nat) : List Lexeme → Except ParseError (List Lexeme)
  | ⟨.closeParen, _⟩ :: rest => .ok rest
  | ⟨.assign, position⟩ :: _ => .error ⟨.misplacedAssignment, position⟩
  | _ => .error ⟨.unclosedParen, opened⟩

mutual

/-- Reads the longest expression of a level, and leaves the tokens after it. -/
def read (b : Builder α) : Nat → Level → List Lexeme → Descent (α × List Lexeme)
  | 0, _, _ => exhausted
  | depth + 1, .sum, tokens => do
    let (left, rest) ← read b depth .product tokens
    readOn b depth .sum left rest
  | depth + 1, .product, tokens => do
    let (left, rest) ← read b depth .negation tokens
    readOn b depth .product left rest
  | depth + 1, .negation, tokens =>
    match tokens with
    | ⟨.minus, position⟩ :: rest => do
      let (operand, rest) ← read b depth .negation rest
      return (← of (Fault.locate position (b.negation operand position)), rest)
    | _ => read b depth .power tokens
  | depth + 1, .power, tokens => do
    let (base, rest) ← read b depth .primary tokens
    match rest with
    | ⟨.caret, position⟩ :: rest => readRight b depth .pow base position rest
    | _ => return (base, rest)
  | depth + 1, .primary, tokens =>
    match tokens with
    | ⟨.number value, position⟩ :: rest => return (b.number value position, rest)
    | ⟨.openParen, opened⟩ :: rest => do
      let (value, rest) ← read b depth .sum rest
      return (value, ← of (close opened rest))
    | ⟨.identifier name, position⟩ :: rest => readName b depth name position rest
    | lexeme :: _ => throw (.unexpected lexeme)
    | [] => throw ⟨.unexpectedEnd, 0⟩

/-- Goes on with a sum or a product, of which `left` has been read. -/
def readOn (b : Builder α) : Nat → Level → α → List Lexeme → Descent (α × List Lexeme)
  | 0, _, _, _ => exhausted
  | _ + 1, _, left, [] => return (left, [])
  | depth + 1, level, left, lexeme :: rest =>
    match lexeme.token.operator? with
    | some op =>
      if op.level = level then do
        let (value, rest) ← readRight b depth op left lexeme.position rest
        readOn b depth level value rest
      else return (left, lexeme :: rest)
    | none =>
      if lexeme.token.startsOperand ∧ level = .product then do
        -- Nothing is taken here: the token belongs to the right factor.
        let (value, rest) ← readRight b depth .impliedMul left lexeme.position (lexeme :: rest)
        readOn b depth level value rest
      else return (left, lexeme :: rest)

/-- Reads the right operand of an operator, and carries the operation out. -/
def readRight (b : Builder α) :
    Nat → Operator → α → Nat → List Lexeme → Descent (α × List Lexeme)
  | 0, _, _, _, _ => exhausted
  | depth + 1, op, left, position, tokens => do
    let (right, rest) ← read b depth op.rightLevel tokens
    return (← of (Fault.locate position (b.operation op left right position)), rest)

/-- Reads what begins with a name. -/
def readName (b : Builder α) :
    Nat → String → Nat → List Lexeme → Descent (α × List Lexeme)
  | 0, _, _, _ => exhausted
  | depth + 1, name, position, tokens =>
    match tokens with
    | ⟨.openParen, opened⟩ :: rest => do
      of (Fault.locate position (b.callable name))
      match rest with
      | ⟨.closeParen, _⟩ :: rest =>
        return (← of (Fault.locate position (b.call name none position)), rest)
      | _ =>
        let (argument, rest) ← read b depth .sum rest
        let rest ← of (close opened rest)
        return (← of (Fault.locate position (b.call name (some argument) position)), rest)
    | ⟨.assign, equals⟩ :: _ => throw ⟨.misplacedAssignment, equals⟩
    | _ => return (← of (Fault.locate position (b.reference name position)), tokens)

end

end Descent

end Calculator
