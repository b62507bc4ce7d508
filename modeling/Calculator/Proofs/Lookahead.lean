import Calculator.Token

/-!
What the next token decides.

An expression that has been read so far can mean three things, and the token after it
tells which. Each is a condition on the tokens that follow:

* `Completes level rest`: no operator at the front of `rest` binds tighter than
  `level`, so an operation of that level has its last operand;
* `Stops level rest`: no operator at the front of `rest` belongs to an expression of
  `level`, so that expression ends;
* `Detached used rest`: a name at the end of `used` is a reference. It is neither
  called nor assigned.

`Operator.leftLevel_le_level` and its neighbours are all that the precedences have to
satisfy. They are checked operator by operator, and everything else follows from them.
-/

namespace Calculator

/-! ### Levels -/

namespace Level

theorem le_refl (a : Level) : a ≤ a := Nat.le_refl _

theorem le_trans {a b c : Level} (hab : a ≤ b) (hbc : b ≤ c) : a ≤ c :=
  Nat.le_trans hab hbc

theorem sum_le (a : Level) : .sum ≤ a := by cases a <;> decide

theorem le_primary (a : Level) : a ≤ .primary := by cases a <;> decide

end Level

namespace Operator

variable {op next : Operator} {level : Level}

theorem level_le_leftLevel (op : Operator) : op.level ≤ op.leftLevel := by
  cases op <;> decide

theorem rightLevel_le_negation (op : Operator) : op.rightLevel ≤ .negation := by
  cases op <;> decide

/-- What an operator cannot continue, it completes. -/
theorem leftLevel_le (h : ¬ level ≤ next.level) : next.leftLevel ≤ level := by
  cases level <;> cases next <;> revert h <;> decide

/-- An operator that is no part of a right operand completes the operation. -/
theorem leftLevel_le_level (h : ¬ op.rightLevel ≤ next.level) : next.leftLevel ≤ op.level := by
  cases op <;> cases next <;> revert h <;> decide

/-- An operator that completes an operation completes its right operand before. -/
theorem leftLevel_le_rightLevel (h : next.leftLevel ≤ op.level) :
    next.leftLevel ≤ op.rightLevel := by
  cases op <;> cases next <;> revert h <;> decide

/-- An operator that is part of a right operand does not complete the operation. -/
theorem not_leftLevel_le_level (h : op.rightLevel ≤ next.level) :
    ¬ next.leftLevel ≤ op.level := by
  cases op <;> cases next <;> revert h <;> decide

theorem not_leftLevel_le_negation (h : .negation ≤ next.level) :
    ¬ next.leftLevel ≤ .negation := by
  cases next <;> revert h <;> decide

end Operator

/-! ### Operators of tokens -/

namespace Token

variable {token before after : Token} {op : Operator}

/-- The operator by which a token goes on after a complete operand: the one that it
writes, or the implied product. -/
def joins? (token : Token) : Option Operator :=
  if token.startsOperand then some .impliedMul else token.operator?

theorem operator?_of_startsOperand (h : token.startsOperand) : token.operator? = none := by
  cases token <;> first | rfl | cases h

theorem joins?_of_startsOperand (h : token.startsOperand) : token.joins? = some .impliedMul :=
  if_pos h

theorem joins?_of_operator? (h : token.operator? = some op) : token.joins? = some op := by
  cases token <;> first | exact h | cases h

theorem joins?_eq_some (h : token.joins? = some op) :
    token.operator? = some op ∨ token.startsOperand ∧ op = .impliedMul := by
  unfold joins? at h
  split at h
  · exact .inr ⟨‹_›, (Option.some.inj h).symm⟩
  · exact .inl h

theorem startsOperand_of_impliesProduct (h : before.impliesProduct after) :
    after.startsOperand := by
  unfold impliesProduct at h
  split at h
  · cases h
  · exact (Bool.and_eq_true_iff.mp h).2

end Token

/-! ### What the next token completes and what it stops -/

/-- Whatever is pending at `level` is complete before the tokens: none of them goes
on with its last operand. -/
def Completes (level : Level) (tokens : List Lexeme) : Prop :=
  ∀ lexeme ∈ tokens.head?, ∀ op ∈ lexeme.token.joins?, op.leftLevel ≤ level

/-- An expression of `level` ends before the tokens: an operator there would be
looser. -/
def Stops (level : Level) (tokens : List Lexeme) : Prop :=
  ∀ lexeme ∈ tokens.head?, ∀ op ∈ lexeme.token.joins?, ¬ level ≤ op.level

section Boundaries

variable {level looser : Level} {op : Operator} {lexeme : Lexeme} {rest : List Lexeme}

theorem Completes.mono (h : Completes looser rest) (le : looser ≤ level) :
    Completes level rest := by
  intro lexeme next op joins
  exact Level.le_trans (h lexeme next op joins) le

theorem Completes.rightLevel (h : Completes op.level rest) : Completes op.rightLevel rest := by
  intro lexeme next op' joins
  exact Operator.leftLevel_le_rightLevel (h lexeme next op' joins)

theorem Stops.completes (h : Stops level rest) : Completes level rest := by
  intro lexeme next op joins
  exact Operator.leftLevel_le (h lexeme next op joins)

theorem Stops.completes_level (h : Stops op.rightLevel rest) : Completes op.level rest := by
  intro lexeme next op' joins
  exact Operator.leftLevel_le_level (h lexeme next op' joins)

theorem completes_primary (rest : List Lexeme) : Completes .primary rest := by
  intro _ _ op _
  exact Level.le_primary op.leftLevel

theorem completes_leftLevel (joins : lexeme.token.joins? = some op) (rest : List Lexeme) :
    Completes op.leftLevel (lexeme :: rest) := by
  rintro _ ⟨⟩ op' joins'
  cases joins.symm.trans joins'
  exact Level.le_refl _

theorem stops_of_not_le (joins : lexeme.token.joins? = some op) (h : ¬ level ≤ op.level) :
    Stops level (lexeme :: rest) := by
  rintro _ ⟨⟩ op' joins'
  cases joins.symm.trans joins'
  exact h

theorem stops_of_joins?_eq_none (h : lexeme.token.joins? = none) :
    Stops level (lexeme :: rest) := by
  rintro _ ⟨⟩ op joins
  cases h.symm.trans joins

theorem completes_closeParen {position : Nat} :
    Completes level (⟨.closeParen, position⟩ :: rest) :=
  (stops_of_joins?_eq_none rfl).completes

end Boundaries

/-! ### Names that stand alone -/

/-- A name at the end of the tokens `used` is neither called nor assigned by the
tokens after it. -/
def Detached (used rest : List Lexeme) : Prop :=
  ∀ name position, used.getLast? = some ⟨.identifier name, position⟩ →
    ∀ next ∈ rest.head?, next.token ≠ .openParen ∧ next.token ≠ .assign

namespace Detached

variable {left right rest : List Lexeme} {before after : Lexeme}

theorem of_append (h : Detached (left ++ right) rest) : Detached right rest := by
  intro name position last
  exact h name position (by simp [last])

theorem of_cons (h : Detached (before :: right) rest) : Detached right rest :=
  of_append (show Detached ([before] ++ right) rest from h)

theorem append (h : Detached right rest) (nonempty : right ≠ []) (left : List Lexeme) :
    Detached (left ++ right) rest := by
  intro name position last
  refine h name position ?_
  rwa [List.getLast?_append, List.getLast?_eq_some_getLast nonempty, Option.some_or,
    ← List.getLast?_eq_some_getLast nonempty] at last

/-- Two operands side by side imply a product, unless the first one is a name that is
called. -/
theorem impliesProduct (h : Detached (left ++ [before]) (after :: rest))
    (ends : before.token.endsOperand) (begins : after.token.startsOperand) :
    before.token.impliesProduct after.token := by
  obtain ⟨token, position⟩ := before
  unfold Token.impliesProduct
  split
  · rename_i name named opens
    cases named
    exact absurd opens (h name position (by simp) after rfl).1
  · simp only [ends, begins, Bool.and_self]

end Detached

section Detachment

variable {used left rest : List Lexeme} {before after last : Lexeme} {op : Operator}

theorem detached_of_impliesProduct (h : before.token.impliesProduct after.token) :
    Detached (left ++ [before]) (after :: rest) := by
  intro name position last
  cases (show before = ⟨.identifier name, position⟩ by simpa using last)
  rintro _ ⟨⟩
  constructor
  · intro opens
    rw [opens] at h
    cases h
  · intro assigns
    rw [assigns] at h
    cases h

theorem detached_of_last (left : List Lexeme) (h : ∀ name, last.token ≠ .identifier name) :
    Detached (left ++ [last]) rest := by
  intro name position last_eq
  cases (show last = ⟨.identifier name, position⟩ by simpa using last_eq)
  exact absurd rfl (h name)

theorem detached_of_next (opens : after.token ≠ .openParen) (assigns : after.token ≠ .assign) :
    Detached used (after :: rest) := by
  rintro _ _ _ _ ⟨⟩
  exact ⟨opens, assigns⟩

theorem detached_of_operator? (h : after.token.operator? = some op) :
    Detached used (after :: rest) := by
  refine detached_of_next ?_ ?_
  · intro opens
    rw [opens] at h
    cases h
  · intro assigns
    rw [assigns] at h
    cases h

theorem detached_closeParen {position : Nat} :
    Detached used (⟨.closeParen, position⟩ :: rest) :=
  detached_of_next nofun nofun

end Detachment

end Calculator
