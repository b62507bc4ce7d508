import Calculator.Formula.Grammar

/-!
Spelling a formula with as few parentheses as the grammar allows.

`Formula.spelling` is the spelling of a formula where an expression of a given level
is wanted. `derives_spelling` says that the grammar derives the formula from it.
-/

namespace Calculator

namespace Formula

/-- Tokens in parentheses, if they spell an expression that is looser than what is
wanted. -/
def enclose (wanted level : Level) (position : Nat) (tokens : List Lexeme) :
    List Lexeme :=
  if wanted ≤ level then tokens
  else ⟨.openParen, position⟩ :: tokens ++ [⟨.closeParen, position⟩]

/-- The spelling of a formula where an expression of a level is wanted. Parentheses
are placed at the position of what they enclose. -/
def spelling (wanted : Level) : Formula → List Lexeme
  | .number value p => [⟨.number value, p⟩]
  | .reference name p => [⟨.identifier name, p⟩]
  | .assignment name right p =>
    ⟨.identifier name, p⟩ :: ⟨.assign, p⟩ :: right.spelling .sum
  | .negation operand p =>
    enclose wanted .negation p (⟨.minus, p⟩ :: operand.spelling .negation)
  | .operation op left right p =>
    enclose wanted op.level p
      (left.spelling op.leftLevel ++ ⟨.ofOperator op, p⟩ :: right.spelling op.rightLevel)
  | .call name argument p =>
    ⟨.identifier name, p⟩ :: ⟨.openParen, p⟩ :: argument.spelling .sum ++ [⟨.closeParen, p⟩]
  | .emptyCall name p => [⟨.identifier name, p⟩, ⟨.openParen, p⟩, ⟨.closeParen, p⟩]

/-- Whether a formula is an expression in which every product is written out. -/
def isExplicit : Formula → Bool
  | .number _ _ | .reference _ _ | .emptyCall _ _ => true
  | .assignment _ _ _ => false
  | .negation operand _ => operand.isExplicit
  | .operation op left right _ => op ≠ .impliedMul && left.isExplicit && right.isExplicit
  | .call _ argument _ => argument.isExplicit

theorem derives_primary {wanted : Level} {f : Formula} {tokens : List Lexeme}
    (h : Derives .primary f tokens) : Derives wanted f tokens :=
  .looser (by cases wanted <;> decide) h

theorem derives_enclose {wanted level : Level} {f : Formula} {position : Nat}
    {tokens : List Lexeme} (h : Derives level f tokens) :
    Derives wanted f (enclose wanted level position tokens) := by
  unfold enclose
  split
  · exact .looser ‹_› h
  · exact derives_primary (.group (.looser (by cases level <;> decide) h))

theorem operator?_ofOperator {op : Operator} (h : op ≠ .impliedMul) :
    (Token.ofOperator op).operator? = some op := by
  cases op <;> first | rfl | contradiction

/-- The grammar derives a formula from its spelling. -/
theorem derives_spelling {f : Formula} (h : f.isExplicit) (wanted : Level) :
    Derives wanted f (f.spelling wanted) := by
  induction f generalizing wanted with
  | number value p => exact derives_primary .number
  | reference name p => exact derives_primary .reference
  | assignment name right p _ => cases h
  | negation operand p ih => exact derives_enclose (.negation (ih h .negation))
  | operation op left right p ihl ihr =>
    simp only [isExplicit, Bool.and_eq_true, decide_eq_true_eq, ne_eq] at h
    exact derives_enclose
      (.operation (operator?_ofOperator h.1.1) (ihl h.1.2 _) (ihr h.2 _))
  | call name argument p ih => exact derives_primary (.call (ih h .sum))
  | emptyCall name p => exact derives_primary .emptyCall

end Formula

end Calculator
