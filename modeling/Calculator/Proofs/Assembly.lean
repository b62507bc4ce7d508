import Calculator.Assembly
import Calculator.Proofs.Lookahead

/-!
What a run of the assembly does.

The equations of this module describe `Assembly.run` in terms of whole operands, so
later proofs never open `step`:

* `run_number`, `run_identifier`, `run_openParen`, `run_minus`: an operand begins;
* `run_reference`, `run_callable`, `run_argument`, `run_emptyCall`: a name is
  understood by the token after it;
* `run_join`, `run_impliedProduct`: a complete operand becomes the left one of an
  operation;
* `run_complete`: the innermost pending operation is carried out, as soon as the next
  token cannot belong to its operand (`Completes`);
* `run_closeParen`, `run_stop`: an expression ends;
* `run_operator`, `run_operand`: a sum goes on with any operator.

`wanted` is the level of the expression that a state waits for. It is what connects
a state to the levels of the grammar.
-/

namespace Calculator

/-! ### Results -/

section Results

variable {ε α β : Type}

@[simp] theorem ok_bind (a : α) (f : α → Except ε β) : (Except.ok a >>= f) = f a := rfl

@[simp] theorem error_bind (e : ε) (f : α → Except ε β) :
    (Except.error e >>= f) = .error e := rfl

@[simp] theorem map_ok (f : α → β) (a : α) : f <$> (Except.ok a : Except ε α) = .ok (f a) := rfl

@[simp] theorem map_error (f : α → β) (e : ε) :
    f <$> (Except.error e : Except ε α) = .error e := rfl

/-- A sequence of two computations succeeds when both do. -/
theorem bind_eq_ok {x : Except ε α} {f : α → Except ε β} {b : β} :
    (x >>= f) = .ok b ↔ ∃ a, x = .ok a ∧ f a = .ok b := by
  cases x with
  | error e => simp
  | ok a => simp

theorem map_eq_ok {x : Except ε α} {f : α → β} {b : β} :
    f <$> x = .ok b ↔ ∃ a, x = .ok a ∧ f a = b := by
  cases x with
  | error e => simp
  | ok a => simp

theorem mapError_eq_ok {ε' : Type} {x : Except ε α} {f : ε → ε'} {a : α} :
    x.mapError f = .ok a ↔ x = .ok a := by
  cases x with
  | error e => exact ⟨nofun, nofun⟩
  | ok a => constructor <;> (rintro ⟨⟩; rfl)

/-- A sequence of two computations fails when one of them does. -/
theorem bind_eq_error {x : Except ε α} {f : α → Except ε β} {e : ε} :
    (x >>= f) = .error e ↔ x = .error e ∨ ∃ a, x = .ok a ∧ f a = .error e := by
  cases x with
  | error e => simp
  | ok a => simp

theorem map_eq_error {x : Except ε α} {f : α → β} {e : ε} :
    f <$> x = .error e ↔ x = .error e := by
  cases x with
  | error e => simp
  | ok a => simp

theorem mapError_eq_error {ε' : Type} {x : Except ε α} {f : ε → ε'} {e' : ε'} :
    x.mapError f = .error e' ↔ ∃ e, x = .error e ∧ f e = e' := by
  constructor
  · intro failed
    cases x with
    | error e => exact ⟨e, rfl, Except.error.inj failed⟩
    | ok a => cases failed
  · rintro ⟨e, rfl, rfl⟩
    rfl

end Results

namespace Assembly

variable {α : Type} {b : Builder α} {goal : Level} {enclosures : List (Enclosure α)}
  {pending : List (Pending α)} {rest : List Lexeme}

/-- The least level of the operand that a pending operation waits for. -/
def Pending.operandLevel : Pending α → Level
  | .negation _ => .negation
  | .operation op _ _ => op.rightLevel

theorem Pending.operandLevel_le_negation : ∀ p : Pending α, p.operandLevel ≤ .negation
  | .negation _ => Level.le_refl _
  | .operation op _ _ => op.rightLevel_le_negation

/-- An operator that belongs to the operand of a pending operation leaves the
operation pending. -/
theorem Pending.not_leftLevel_le {op : Operator} :
    ∀ p : Pending α, p.operandLevel ≤ op.level → ¬ op.leftLevel ≤ p.level
  | .negation _ => Operator.not_leftLevel_le_negation
  | .operation _ _ _ => Operator.not_leftLevel_le_level

/-- The level of the expression that a state waits for. -/
def wanted (goal : Level) (enclosures : List (Enclosure α)) : List (Pending α) → Level
  | [] => goalWithin goal enclosures
  | p :: _ => p.operandLevel

/-! ### An operand begins -/

theorem run_number {value : Float} {position : Nat} :
    run b goal ⟨enclosures, pending, .operand⟩ (⟨.number value, position⟩ :: rest) =
      run b goal ⟨enclosures, pending, .value (b.number value position)⟩ rest := rfl

theorem run_identifier {name : String} {position : Nat} :
    run b goal ⟨enclosures, pending, .operand⟩ (⟨.identifier name, position⟩ :: rest) =
      run b goal ⟨enclosures, pending, .name name position⟩ rest := rfl

theorem run_openParen {position : Nat} :
    run b goal ⟨enclosures, pending, .operand⟩ (⟨.openParen, position⟩ :: rest) =
      run b goal ⟨⟨.group, position, pending⟩ :: enclosures, [], .operand⟩ rest := rfl

theorem run_minus {position : Nat} (h : wanted goal enclosures pending ≤ .negation) :
    run b goal ⟨enclosures, pending, .operand⟩ (⟨.minus, position⟩ :: rest) =
      run b goal ⟨enclosures, .negation position :: pending, .operand⟩ rest := by
  have accepted : ¬ (pending.isEmpty ∧ ¬ goalWithin goal enclosures ≤ .negation) := by
    cases pending with
    | nil => simpa [wanted] using h
    | cons p pending => simp
  simp only [run, step, beginOperand, if_neg accepted, map_ok, ok_bind]

theorem run_minus_of_not_le {position : Nat} (h : ¬ wanted goal enclosures pending ≤ .negation) :
    run b goal ⟨enclosures, pending, .operand⟩ (⟨.minus, position⟩ :: rest) =
      .error (.unexpected ⟨.minus, position⟩) := by
  have refused : pending.isEmpty ∧ ¬ goalWithin goal enclosures ≤ .negation := by
    cases pending with
    | nil => exact ⟨rfl, h⟩
    | cons p pending => exact absurd p.operandLevel_le_negation h
  simp only [run, step, beginOperand, if_pos refused, map_error, error_bind]

/-! ### A name is understood by the next token -/

theorem run_reference {name : String} {position : Nat}
    (detached : ∀ lexeme ∈ rest.head?,
      lexeme.token ≠ .openParen ∧ lexeme.token ≠ .assign) :
    run b goal ⟨enclosures, pending, .name name position⟩ rest =
      (Fault.locate position (b.reference name position) >>= fun value =>
        run b goal ⟨enclosures, pending, .value value⟩ rest) := by
  cases rest with
  | nil => simp [run, finish]
  | cons lexeme rest =>
    obtain ⟨token, q⟩ := lexeme
    have h := detached ⟨token, q⟩ rfl
    cases token <;> simp_all [run, step]

theorem run_callable {name : String} {position opened : Nat} :
    run b goal ⟨enclosures, pending, .name name position⟩ (⟨.openParen, opened⟩ :: rest) =
      (Fault.locate position (b.callable name) >>= fun _ =>
        run b goal ⟨enclosures, pending, .argument name position opened⟩ rest) := by
  simp [run, step]

theorem run_emptyCall {name : String} {position opened q : Nat} :
    run b goal ⟨enclosures, pending, .argument name position opened⟩
        (⟨.closeParen, q⟩ :: rest) =
      (Fault.locate position (b.call name none position) >>= fun value =>
        run b goal ⟨enclosures, pending, .value value⟩ rest) := by
  simp [run, step]

theorem eq_closeParen_or_begins (tokens : List Lexeme) :
    (∃ position rest, tokens = ⟨.closeParen, position⟩ :: rest) ∨
      ∀ lexeme ∈ tokens.head?, lexeme.token ≠ .closeParen := by
  cases tokens with
  | nil => exact .inr nofun
  | cons lexeme rest =>
    by_cases closes : lexeme.token = .closeParen
    · exact .inl ⟨lexeme.position, rest, by rw [← closes]⟩
    · exact .inr (by rintro _ ⟨⟩; exact closes)

theorem run_argument {name : String} {position opened : Nat}
    (begins : ∀ lexeme ∈ rest.head?, lexeme.token ≠ .closeParen) :
    run b goal ⟨enclosures, pending, .argument name position opened⟩ rest =
      run b goal ⟨⟨.call name position, opened, pending⟩ :: enclosures, [], .operand⟩ rest := by
  cases rest with
  | nil => rfl
  | cons lexeme rest =>
    obtain ⟨token, q⟩ := lexeme
    have h := begins ⟨token, q⟩ rfl
    cases token <;> simp_all [run, step]

/-! ### A complete operand is joined -/

/-- Nothing is unwound by an operator that belongs to the operand waited for. -/
theorem unwind_eq_self {op : Operator} {value : α}
    (h : wanted goal enclosures pending ≤ op.level) :
    unwind b op.leftLevel pending value = .ok (pending, value) := by
  cases pending with
  | nil => rfl
  | cons p pending =>
    simp only [unwind, if_neg (p.not_leftLevel_le h)]

theorem joinOperator_eq {op : Operator} {value : α} {position : Nat}
    (h : wanted goal enclosures pending ≤ op.level) :
    joinOperator b goal enclosures pending value op position =
      .ok (.inr (.operation op value position :: pending)) := by
  have accepted : ¬ (pending.isEmpty ∧ ¬ goalWithin goal enclosures ≤ op.level) := by
    cases pending with
    | nil => simpa [wanted] using h
    | cons p pending => simp
  simp only [joinOperator, unwind_eq_self h, ok_bind, if_neg accepted]
  rfl

theorem run_join {value : α} {op : Operator} {lexeme : Lexeme}
    (sign : lexeme.token.operator? = some op) (h : wanted goal enclosures pending ≤ op.level) :
    run b goal ⟨enclosures, pending, .value value⟩ (lexeme :: rest) =
      run b goal ⟨enclosures, .operation op value lexeme.position :: pending, .operand⟩
        rest := by
  simp only [run, step, afterValue, sign, joinOperator_eq h, ok_bind]
  rfl

/-- The sign of an implied product takes no token: the next one begins the right
operand. -/
theorem run_impliedProduct {value : α} {lexeme : Lexeme}
    (begins : lexeme.token.startsOperand) (h : wanted goal enclosures pending ≤ .product) :
    run b goal ⟨enclosures, pending, .value value⟩ (lexeme :: rest) =
      run b goal ⟨enclosures, .operation .impliedMul value lexeme.position :: pending, .operand⟩
        (lexeme :: rest) := by
  have joined : joinOperator b goal enclosures pending value .impliedMul lexeme.position =
      .ok (.inr (.operation .impliedMul value lexeme.position :: pending)) := joinOperator_eq h
  simp only [run, step, afterValue, Token.operator?_of_startsOperand begins, begins, joined,
    ok_bind, if_true]
  rfl

/-! ### A pending operation is carried out -/

theorem joinOperator_complete {p : Pending α} {value : α} {op : Operator} {position : Nat}
    (h : op.leftLevel ≤ p.level) :
    joinOperator b goal enclosures (p :: pending) value op position =
      (p.complete b value >>= fun value =>
        joinOperator b goal enclosures pending value op position) := by
  simp only [joinOperator, unwind, if_pos h, bind_assoc]

theorem afterValue_complete {p : Pending α} {value : α} {lexeme : Lexeme}
    (h : ∀ op ∈ lexeme.token.joins?, op.leftLevel ≤ p.level) :
    afterValue b goal enclosures (p :: pending) value lexeme =
      (p.complete b value >>= fun value =>
        afterValue b goal enclosures pending value lexeme) := by
  unfold afterValue
  cases sign : lexeme.token.operator? with
  | some op =>
    simp only [joinOperator_complete (h op (Token.joins?_of_operator? sign)), bind_assoc]
  | none =>
    by_cases begins : lexeme.token.startsOperand
    · have tighter := h .impliedMul (Token.joins?_of_startsOperand begins)
      simp only [begins, if_true, joinOperator_complete tighter, bind_assoc]
    · simp only [begins, settle, bind_assoc]
      rfl

theorem run_complete {p : Pending α} {value : α} (h : Completes p.level rest) :
    run b goal ⟨enclosures, p :: pending, .value value⟩ rest =
      (p.complete b value >>= fun value =>
        run b goal ⟨enclosures, pending, .value value⟩ rest) := by
  cases rest with
  | nil => simp [run, finish, settleAll, settle]
  | cons lexeme rest => simp only [run, step, afterValue_complete (h lexeme rfl), bind_assoc]

/-! ### An expression ends -/

theorem run_closeParen {e : Enclosure α} {value : α} {position : Nat} :
    run b goal ⟨e :: enclosures, [], .value value⟩ (⟨.closeParen, position⟩ :: rest) =
      (e.bracket.close b value >>= fun value =>
        run b goal ⟨enclosures, e.outside, .value value⟩ rest) := by
  simp only [run, step, afterValue, Token.operator?, Token.startsOperand, Bool.false_eq_true,
    if_false, settle, ok_bind, bind_assoc, pure_bind]

theorem joinOperator_stop {value : α} {op : Operator} {position : Nat} (h : ¬ goal ≤ op.level) :
    joinOperator b goal [] [] value op position = .ok (.inl value) := by
  simp only [joinOperator, unwind, ok_bind, goalWithin, h, List.isEmpty_nil]
  rfl

/-- Outside parentheses an expression that ends leaves the tokens. -/
theorem run_stop {value : α} (stops : Stops goal rest) :
    run b goal ⟨[], [], .value value⟩ rest = .ok (value, rest) := by
  cases rest with
  | nil => rfl
  | cons lexeme rest =>
    have ends : afterValue b goal [] [] value lexeme = .ok (.finished value) := by
      unfold afterValue
      cases sign : lexeme.token.operator? with
      | some op =>
        have looser := stops lexeme rfl op (Token.joins?_of_operator? sign)
        simp only [joinOperator_stop looser, ok_bind]
        rfl
      | none =>
        by_cases begins : lexeme.token.startsOperand
        · have looser := stops lexeme rfl .impliedMul (Token.joins?_of_startsOperand begins)
          simp only [begins, if_true, joinOperator_stop looser, ok_bind]
          rfl
        · simp only [begins, settle, ok_bind]
          rfl
    simp only [run, step, ends, ok_bind]
    rfl

/-- Within parentheses an expression that ends is followed by the closing one, or the
assembly fails. -/
theorem eq_closeParen_of_run_ok {e : Enclosure α} {value : α} {r : α × List Lexeme}
    (stops : Stops .sum rest)
    (h : run b goal ⟨e :: enclosures, [], .value value⟩ rest = .ok r) :
    ∃ position rest', rest = ⟨.closeParen, position⟩ :: rest' := by
  cases rest with
  | nil => cases h
  | cons lexeme rest =>
    obtain ⟨token, position⟩ := lexeme
    have loose : token.joins? = none :=
      Option.eq_none_iff_forall_not_mem.mpr fun op joins =>
        stops ⟨token, position⟩ rfl op joins (Level.sum_le _)
    cases token with
    | closeParen => exact ⟨position, rest, rfl⟩
    | assign | blank | endOfInput => cases h
    | _ => cases loose

/-! ### Operators within sums -/

section Sums

variable {value : α} {lexeme : Lexeme}

theorem goalWithin_sum_le (enclosures : List (Enclosure α)) (level : Level) :
    goalWithin .sum enclosures ≤ level := by
  cases enclosures <;> exact Level.sum_le level

/-- A sum may have a sign. -/
theorem beginOperand_minus {position : Nat} :
    beginOperand b .sum enclosures pending ⟨.minus, position⟩ =
      .ok ⟨enclosures, .negation position :: pending, .operand⟩ := by
  have accepted : ¬ (pending.isEmpty ∧ ¬ goalWithin .sum enclosures ≤ .negation) :=
    fun refused => refused.2 (goalWithin_sum_le enclosures .negation)
  simp only [beginOperand, if_neg accepted]

/-- A sum goes on with every operator. -/
theorem joinOperator_sum (op : Operator) (position : Nat) :
    joinOperator b .sum enclosures pending value op position =
      (fun r => .inr (.operation op r.2 position :: r.1)) <$>
        unwind b op.leftLevel pending value := by
  have accepted (pending : List (Pending α)) :
      ¬ (pending.isEmpty ∧ ¬ goalWithin .sum enclosures ≤ op.level) :=
    fun refused => refused.2 (goalWithin_sum_le enclosures op.level)
  simp only [joinOperator, if_neg (accepted _)]
  rfl

theorem afterValue_operator {op : Operator} (sign : lexeme.token.operator? = some op) :
    afterValue b .sum enclosures pending value lexeme =
      (fun r => .taken ⟨enclosures, .operation op r.2 lexeme.position :: r.1, .operand⟩) <$>
        unwind b op.leftLevel pending value := by
  simp only [afterValue, sign, joinOperator_sum, bind_map_left]
  rfl

theorem afterValue_operand (begins : lexeme.token.startsOperand) :
    afterValue b .sum enclosures pending value lexeme =
      (unwind b .product pending value >>= fun r =>
        .taken <$> beginOperand b .sum enclosures
          (.operation .impliedMul r.2 lexeme.position :: r.1) lexeme) := by
  simp only [afterValue, Token.operator?_of_startsOperand begins, begins, if_true,
    joinOperator_sum, bind_map_left]
  rfl

theorem run_operator {op : Operator} (sign : lexeme.token.operator? = some op) :
    run b .sum ⟨enclosures, pending, .value value⟩ (lexeme :: rest) =
      (unwind b op.leftLevel pending value >>= fun r =>
        run b .sum ⟨enclosures, .operation op r.2 lexeme.position :: r.1, .operand⟩ rest) := by
  simp only [run, step, afterValue_operator sign, bind_map_left]

theorem run_operand (begins : lexeme.token.startsOperand) :
    run b .sum ⟨enclosures, pending, .value value⟩ (lexeme :: rest) =
      (unwind b .product pending value >>= fun r =>
        run b .sum ⟨enclosures, .operation .impliedMul r.2 lexeme.position :: r.1, .operand⟩
          (lexeme :: rest)) := by
  simp only [run, step, afterValue_operand begins, bind_assoc]

end Sums

end Assembly

end Calculator
