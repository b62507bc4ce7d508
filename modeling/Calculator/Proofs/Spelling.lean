import Calculator.Formula.Spelling
import Calculator.Proofs.Statement

/-!
Reading undoes spelling.

`Formula.spelling` puts parentheses around an operand only where it is looser than what
its operator needs. These are enough: the spelling of a formula is evaluated as this
formula (`Formula.ReadFrom`), with its shape and its positions. The groupings that have
no parentheses at all follow: operators of one level group to the left, powers to the
right, and a sign stands outside of the power to its right.
-/

namespace Calculator.Formula

variable {f a b c : Formula} {wanted : Level} {op : Operator} {tokens : List Lexeme}

/-- Wherever the formula has a value, the tokens before the end of input have it too,
and their tree has the shape of the formula. -/
def ReadFrom (f : Formula) (tokens : List Lexeme) : Prop :=
  ∀ bindings endsAt tree, f.build (Tree.builder bindings) = .ok tree →
    evaluateTokens (tokens ++ [⟨.endOfInput, endsAt⟩]) bindings = .ok tree ∧
      tree.formula? = some f

theorem readFrom_of_derives (derives : Derives .sum f tokens) : f.ReadFrom tokens := by
  intro bindings endsAt tree builds
  have ended : Ended [⟨.endOfInput, endsAt⟩] := by
    rintro _ ⟨⟩
    rfl
  have statement : DerivesStatement f (beforeEnd (tokens ++ [⟨.endOfInput, endsAt⟩])) := by
    rw [beforeEnd_append derives ended]
    exact .expression derives
  constructor
  · rw [evaluateTokens, assembleStatement_eq_build statement, builds]
  · exact formula?_of_build builds

/-! ### Spellings without parentheses -/

theorem spelling_operation (h : wanted ≤ op.level) (p : Nat) :
    (operation op a b p).spelling wanted =
      a.spelling op.leftLevel ++ ⟨.ofOperator op, p⟩ :: b.spelling op.rightLevel :=
  if_pos h

/-- An operator takes one of its own level as its left operand. -/
theorem spelling_groupsLeft {next : Operator} (notPower : op ≠ .pow)
    (same : op.level = next.level) (p q : Nat) :
    (operation next (operation op a b p) c q).spelling .sum =
      a.spelling op.leftLevel ++ ⟨.ofOperator op, p⟩ :: b.spelling op.rightLevel ++
        ⟨.ofOperator next, q⟩ :: c.spelling next.rightLevel := by
  have accepted : next.leftLevel ≤ op.level := by
    cases op <;> cases next <;> first | decide | contradiction
  rw [spelling_operation (Level.sum_le _), spelling_operation accepted]

/-- A power takes a power as its exponent. -/
theorem spelling_pow_pow (p q : Nat) :
    (operation .pow a (operation .pow b c q) p).spelling .sum =
      a.spelling .primary ++ ⟨.caret, p⟩ ::
        (b.spelling .primary ++ ⟨.caret, q⟩ :: c.spelling .negation) :=
  rfl

/-- A sign takes the power to its right. -/
theorem spelling_negation_pow (p q : Nat) :
    (negation (operation .pow a b q) p).spelling .sum =
      ⟨.minus, p⟩ :: (a.spelling .primary ++ ⟨.caret, q⟩ :: b.spelling .negation) :=
  rfl

/-- An exponent may have a sign, which takes the power to its right. -/
theorem spelling_pow_negation_pow (p q r : Nat) :
    (operation .pow a (negation (operation .pow b c r) q) p).spelling .sum =
      a.spelling .primary ++ ⟨.caret, p⟩ :: ⟨.minus, q⟩ ::
        (b.spelling .primary ++ ⟨.caret, r⟩ :: c.spelling .negation) :=
  rfl

/-! ### Reading a spelling -/

/-- The spelling of a formula is read as this formula. In particular operators of one
level other than powers group to the left, powers group to the right, and a sign stands
outside of the power that it precedes, also within an exponent. -/
theorem readFrom_spelling :
    (∀ f : Formula, f.isExplicit → f.ReadFrom (f.spelling .sum)) ∧
    ∀ (a b c : Formula) (p q r : Nat), a.isExplicit → b.isExplicit → c.isExplicit →
      (∀ op next : Operator, op ≠ .impliedMul → next ≠ .impliedMul → op ≠ .pow →
        op.level = next.level →
        (operation next (operation op a b p) c q).ReadFrom
          (a.spelling op.leftLevel ++ ⟨.ofOperator op, p⟩ :: b.spelling op.rightLevel ++
            ⟨.ofOperator next, q⟩ :: c.spelling next.rightLevel)) ∧
      (operation .pow a (operation .pow b c q) p).ReadFrom
        (a.spelling .primary ++ ⟨.caret, p⟩ ::
          (b.spelling .primary ++ ⟨.caret, q⟩ :: c.spelling .negation)) ∧
      (negation (operation .pow a b q) p).ReadFrom
        (⟨.minus, p⟩ :: (a.spelling .primary ++ ⟨.caret, q⟩ :: b.spelling .negation)) ∧
      (operation .pow a (negation (operation .pow b c r) q) p).ReadFrom
        (a.spelling .primary ++ ⟨.caret, p⟩ :: ⟨.minus, q⟩ ::
          (b.spelling .primary ++ ⟨.caret, r⟩ :: c.spelling .negation)) := by
  have reads (f : Formula) (explicit : f.isExplicit) : f.ReadFrom (f.spelling .sum) :=
    readFrom_of_derives (derives_spelling explicit .sum)
  refine ⟨reads, ?_⟩
  intro a b c p q r ha hb hc
  refine ⟨?_, ?_, ?_, ?_⟩
  · intro op next written nextWritten notPower same
    rw [← spelling_groupsLeft notPower same]
    exact reads _ (by simp [isExplicit, written, nextWritten, ha, hb, hc])
  · rw [← spelling_pow_pow]
    exact reads _ (by simp [isExplicit, ha, hb, hc])
  · rw [← spelling_negation_pow]
    exact reads _ (by simp [isExplicit, ha, hb])
  · rw [← spelling_pow_negation_pow]
    exact reads _ (by simp [isExplicit, ha, hb, hc])

/-- Two differences in a row. -/
theorem readFrom_spelling_sub :
    evaluateTokens [⟨.number 8.0, 0⟩, ⟨.minus, 2⟩, ⟨.number 4.0, 4⟩, ⟨.minus, 6⟩,
        ⟨.number 2.0, 8⟩, ⟨.endOfInput, 9⟩] .empty =
      .ok (.operation .sub
        (.operation .sub (.number 8.0 0) (.number 4.0 4) 4.0 2) (.number 2.0 8) 2.0 6) := by
  have grouped := (readFrom_spelling.2 (.number 8.0 0) (.number 4.0 4) (.number 2.0 8) 2 6 0
    rfl rfl rfl).1 .sub .sub (by decide) (by decide) (by decide) rfl
  exact (grouped .empty 9 _ rfl).1

end Calculator.Formula
