import Calculator.Fault
import Calculator.Token

/-!
Assembling an expression from its tokens.

Tokens are taken one at a time. A `State` holds what has been read so far: the
operations of the innermost parentheses that still wait for an operand
(`Pending`), the same for everything around them (`Enclosure`), and what is read at
the moment (`Focus`). An operator completes the pending operations that may be its
left operand (`Operator.leftLevel`) and then waits for its right operand; a closing
parenthesis or the end completes all of them. So each operation is carried out as
soon as its operands are there, and the first fault ends the assembly.

What an operation builds is left to a `Builder`.
-/

namespace Calculator

/-! ### Errors -/

/-- Why tokens are no statement. -/
inductive ParseError.Cause where
  | unexpectedToken (token : Token)
  | unexpectedEnd
  | unclosedParen
  | trailingTokens (token : Token)
  | misplacedAssignment
  | fault (fault : Fault)
deriving DecidableEq

/-- The position is that of the token to blame, or 0 where the tokens run out. -/
structure ParseError where
  cause : ParseError.Cause
  position : Nat
deriving DecidableEq

/-- The words of the message for a cause. -/
def ParseError.Cause.describe : ParseError.Cause → String
  | .unexpectedToken token => "Unexpected token '" ++ token.text ++ "'."
  | .unexpectedEnd => "Unexpected end of input."
  | .unclosedParen => "Expected closing parenthesis ')' but none found."
  | .trailingTokens token =>
    "Extra tokens after expression, starting at '" ++ token.text ++ "'."
  | .misplacedAssignment => "Assignment is only allowed as `name = expression`."
  | .fault f => f.message

/-- The message of a parse error. -/
def ParseError.message (e : ParseError) : String :=
  "Error at position " ++ toString e.position ++ ": " ++ e.cause.describe

/-- The error for a token where an operand should begin. -/
def ParseError.unexpected (lexeme : Lexeme) : ParseError :=
  match lexeme.token with
  | .endOfInput => ⟨.unexpectedEnd, lexeme.position⟩
  | .assign => ⟨.misplacedAssignment, lexeme.position⟩
  | token => ⟨.unexpectedToken token, lexeme.position⟩

/-- Ties a fault to the token to blame for it. -/
def Fault.locate {α : Type} (position : Nat) (result : Except Fault α) :
    Except ParseError α :=
  result.mapError fun fault => ⟨.fault fault, position⟩

/-! ### Builders -/

/-- What becomes of the parts of an expression. The position of an operation is that
of its operator, and that of a call is that of its name. -/
structure Builder (α : Type) where
  number : Float → Nat → α
  reference : String → Nat → Except Fault α
  /-- Looks at the name of a call before its argument is read. -/
  callable : String → Except Fault Unit
  /-- A call with or without an argument. -/
  call : String → Option α → Nat → Except Fault α
  negation : α → Nat → Except Fault α
  operation : Operator → α → α → Nat → Except Fault α
  assignment : String → α → Nat → α

namespace Assembly

variable {α : Type}

/-! ### States -/

/-- An operation that waits for its last operand. -/
inductive Pending (α : Type) where
  | negation (position : Nat)
  | operation (operator : Operator) (left : α) (position : Nat)

/-- The level of the expression that a pending operation makes. -/
def Pending.level : Pending α → Level
  | .negation _ => .negation
  | .operation op _ _ => op.level

/-- Carries out a pending operation. -/
def Pending.complete (b : Builder α) (operand : α) : Pending α → Except ParseError α
  | .negation position => Fault.locate position (b.negation operand position)
  | .operation op left position =>
    Fault.locate position (b.operation op left operand position)

/-- What an open parenthesis belongs to. -/
inductive Bracket where
  | group
  | call (name : String) (position : Nat)
deriving DecidableEq, Repr

/-- An open parenthesis, and the operations that wait outside of it. -/
structure Enclosure (α : Type) where
  bracket : Bracket
  opened : Nat
  outside : List (Pending α)

/-- What is read at the moment. -/
inductive Focus (α : Type) where
  /-- An operand has to begin here. -/
  | operand
  /-- The first token after the open parenthesis of a call. -/
  | argument (name : String) (position opened : Nat)
  /-- A name whose meaning depends on the next token. -/
  | name (name : String) (position : Nat)
  /-- A complete operand. -/
  | value (value : α)

/-- What has been read so far. -/
structure State (α : Type) where
  enclosures : List (Enclosure α)
  pending : List (Pending α)
  focus : Focus α

/-- Nothing has been read. -/
def State.start : State α := ⟨[], [], .operand⟩

/-- What a token does: it is taken, or it ends the expression and is left. -/
inductive Progress (α : Type) where
  | taken (state : State α)
  | finished (value : α)

/-! ### Completing operations -/

/-- Completes the pending operations that bind at least as tightly as `level`. -/
def unwind (b : Builder α) (level : Level) :
    List (Pending α) → α → Except ParseError (List (Pending α) × α)
  | [], value => .ok ([], value)
  | p :: rest, value =>
    if level ≤ p.level then do unwind b level rest (← p.complete b value)
    else .ok (p :: rest, value)

/-- Completes all pending operations. -/
def settle (b : Builder α) : List (Pending α) → α → Except ParseError α
  | [], value => .ok value
  | p :: rest, value => do settle b rest (← p.complete b value)

/-! ### Steps -/

/-- The expression that is read: within parentheses a sum, outside what was asked
for. -/
def goalWithin (goal : Level) : List (Enclosure α) → Level
  | [] => goal
  | _ :: _ => .sum

/-- Takes a token that has to begin an operand. A sign is one only where the
expression that is read may be a negation. -/
def beginOperand (b : Builder α) (goal : Level) (enclosures : List (Enclosure α))
    (pending : List (Pending α)) (lexeme : Lexeme) : Except ParseError (State α) :=
  match lexeme.token with
  | .number value => .ok ⟨enclosures, pending, .value (b.number value lexeme.position)⟩
  | .identifier name => .ok ⟨enclosures, pending, .name name lexeme.position⟩
  | .openParen => .ok ⟨⟨.group, lexeme.position, pending⟩ :: enclosures, [], .operand⟩
  | .minus =>
    if pending.isEmpty ∧ ¬ goalWithin goal enclosures ≤ .negation then
      .error (.unexpected lexeme)
    else .ok ⟨enclosures, .negation lexeme.position :: pending, .operand⟩
  | _ => .error (.unexpected lexeme)

/-- Completes the left operand of an operator. Then the operator waits for its right
one; or, where it cannot go on with the expression that is read, there is only the
value to its left. -/
def joinOperator (b : Builder α) (goal : Level) (enclosures : List (Enclosure α))
    (pending : List (Pending α)) (value : α) (op : Operator) (position : Nat) :
    Except ParseError (α ⊕ List (Pending α)) := do
  let (pending, value) ← unwind b op.leftLevel pending value
  if pending.isEmpty ∧ ¬ goalWithin goal enclosures ≤ op.level then return .inl value
  else return .inr (.operation op value position :: pending)

/-- The parenthesised operand that a closing parenthesis makes. -/
def Bracket.close (b : Builder α) (value : α) : Bracket → Except ParseError α
  | .group => .ok value
  | .call name position => Fault.locate position (b.call name (some value) position)

/-- Takes a token after a complete operand. -/
def afterValue (b : Builder α) (goal : Level) (enclosures : List (Enclosure α))
    (pending : List (Pending α)) (value : α) (lexeme : Lexeme) :
    Except ParseError (Progress α) :=
  match lexeme.token.operator? with
  | some op => do
    match ← joinOperator b goal enclosures pending value op lexeme.position with
    | .inl value => return .finished value
    | .inr pending => return .taken ⟨enclosures, pending, .operand⟩
  | none =>
    if lexeme.token.startsOperand then do
      match ← joinOperator b goal enclosures pending value .impliedMul lexeme.position with
      | .inl value => return .finished value
      | .inr pending => return .taken (← beginOperand b goal enclosures pending lexeme)
    else do
      let value ← settle b pending value
      match enclosures with
      | [] => return .finished value
      | e :: enclosures =>
        match lexeme.token with
        | .closeParen =>
          return .taken ⟨enclosures, e.outside, .value (← e.bracket.close b value)⟩
        | .assign => throw ⟨.misplacedAssignment, lexeme.position⟩
        | _ => throw ⟨.unclosedParen, e.opened⟩

/-- Takes one token. -/
def step (b : Builder α) (goal : Level) (s : State α) (lexeme : Lexeme) :
    Except ParseError (Progress α) :=
  match s.focus with
  | .operand => .taken <$> beginOperand b goal s.enclosures s.pending lexeme
  | .argument name position opened =>
    match lexeme.token with
    | .closeParen => do
      let value ← Fault.locate position (b.call name none position)
      return .taken ⟨s.enclosures, s.pending, .value value⟩
    | _ =>
      .taken <$> beginOperand b goal
        (⟨.call name position, opened, s.pending⟩ :: s.enclosures) [] lexeme
  | .name name position =>
    match lexeme.token with
    | .openParen => do
      Fault.locate position (b.callable name)
      return .taken ⟨s.enclosures, s.pending, .argument name position lexeme.position⟩
    | .assign => .error ⟨.misplacedAssignment, lexeme.position⟩
    | _ => do
      let value ← Fault.locate position (b.reference name position)
      afterValue b goal s.enclosures s.pending value lexeme
  | .value value => afterValue b goal s.enclosures s.pending value lexeme

/-- The value of a complete operand after which the tokens run out. -/
def settleAll (b : Builder α) (enclosures : List (Enclosure α))
    (pending : List (Pending α)) (value : α) : Except ParseError α := do
  let value ← settle b pending value
  match enclosures with
  | [] => return value
  | e :: _ => throw ⟨.unclosedParen, e.opened⟩

/-- What a state comes to when the tokens run out. -/
def finish (b : Builder α) (s : State α) : Except ParseError α :=
  match s.focus with
  | .operand | .argument _ _ _ => .error ⟨.unexpectedEnd, 0⟩
  | .name name position => do
    let value ← Fault.locate position (b.reference name position)
    settleAll b s.enclosures s.pending value
  | .value value => settleAll b s.enclosures s.pending value

/-- Takes tokens for as long as they go on with the expression. -/
def run (b : Builder α) (goal : Level) (s : State α) :
    List Lexeme → Except ParseError (α × List Lexeme)
  | [] => do return (← finish b s, [])
  | lexeme :: rest => do
    match ← step b goal s lexeme with
    | .taken s => run b goal s rest
    | .finished value => return (value, lexeme :: rest)

end Assembly

open Assembly

variable {α : Type}

/-- The longest expression of a level that the tokens begin with, and the tokens
after it. -/
def assemble (b : Builder α) (goal : Level) (tokens : List Lexeme) :
    Except ParseError (α × List Lexeme) :=
  run b goal .start tokens

/-- The expression that all tokens up to the end of input make. -/
def assembleAll (b : Builder α) (tokens : List Lexeme) : Except ParseError α := do
  let (value, rest) ← assemble b .sum tokens
  match rest with
  | [] => return value
  | lexeme :: _ =>
    match lexeme.token with
    | .endOfInput => return value
    | .assign => throw ⟨.misplacedAssignment, lexeme.position⟩
    | token => throw ⟨.trailingTokens token, lexeme.position⟩

/-- The statement that the tokens make: a name, an equals sign and an expression, or
an expression alone. -/
def assembleStatement (b : Builder α) : List Lexeme → Except ParseError α
  | ⟨.identifier name, position⟩ :: ⟨.assign, _⟩ :: rest => do
    return b.assignment name (← assembleAll b rest) position
  | tokens => assembleAll b tokens

end Calculator
