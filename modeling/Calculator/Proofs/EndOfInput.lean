import Calculator.Proofs.Correspondence
import Calculator.Proofs.Session

/-!
What comes behind the end of input.

Nothing goes on with an expression at the end of input, so a run halts there at the latest, and it
halts as it does where the tokens run out (`matches_finish_step`). The tokens behind the end are
never looked at, and without an end nothing is different but the place of an operand that is
missing (`evaluateTokens_endOfInput`).
-/

namespace Calculator

/-- An expression that breaks off is blamed on its end, at `p`, or at 0 if the tokens ran out. All
other errors are the same. -/
inductive EndsAt (p : Nat) : ParseError → ParseError → Prop where
  | same {e : ParseError} : e.cause ≠ .unexpectedEnd → EndsAt p e e
  | brokenOff : EndsAt p ⟨.unexpectedEnd, 0⟩ ⟨.unexpectedEnd, p⟩

namespace EndsAt

variable {p : Nat} {e e' e'' : ParseError}

/-- The end tells how the error that blames it is placed. -/
theorem unique (first : EndsAt p e e') (second : EndsAt p e e'') : e' = e'' := by
  cases first with
  | same other =>
    cases second with
    | same => rfl
    | brokenOff => exact absurd rfl other
  | brokenOff =>
    cases second with
    | same other => exact absurd rfl other
    | brokenOff => rfl

theorem of_fault (h : ∃ fault position, e = ⟨.fault fault, position⟩) : EndsAt p e e := by
  obtain ⟨fault, position, rfl⟩ := h
  exact .same nofun

end EndsAt

section Answers

variable {ε ε' α : Type} {errors : ε → ε' → Prop} {x : Except ε α} {y z : Except ε' α}

/-- What two computations have in common with a third, they have in common with each other. -/
theorem Matches.unique (first : Matches errors Eq x y) (second : Matches errors Eq x z)
    (same : ∀ e e' e'', errors e e' → errors e e'' → e' = e'') : y = z := by
  cases first with
  | ok related =>
    cases second with
    | ok related' => rw [← related, related']
  | error related =>
    cases second with
    | error related' => rw [same _ _ _ related related']

/-- An error writes nothing, whatever it is. -/
theorem after_eq_of_matches {bindings : Bindings} {answer : Except ε Tree}
    {answer' : Except ε' Tree} (same : Matches errors Eq answer answer') :
    bindings.after answer = bindings.after answer' := by
  cases same with
  | ok related => rw [related]; rfl
  | error => rfl

end Answers

namespace Assembly

variable {α : Type} {b : Builder α} {s : State α} {enclosures : List (Enclosure α)}
  {pending : List (Pending α)} {value : α} {p : Nat} {used tokens rest : List Lexeme}
  {lexeme : Lexeme} {e : ParseError}

/-- Only the end of input breaks an expression off. -/
theorem Refuses.cause_ne (refuses : Refuses used lexeme e) (plain : lexeme.token ≠ .endOfInput) :
    e.cause ≠ .unexpectedEnd := by
  cases refuses with
  | fault | assigned | unclosed | trailing => exact nofun
  | unexpected =>
    obtain ⟨token, position⟩ := lexeme
    cases token with
    | endOfInput => exact absurd rfl plain
    | _ => exact nofun

/-! ### The last step -/

/-- Computations that have only faults fail in the same way. -/
theorem matches_endsAt_self {β : Type} {x : Except ParseError β}
    (faults : ∀ e, x = .error e → ∃ fault position, e = ⟨.fault fault, position⟩) :
    Matches (EndsAt p) Eq x x := by
  cases x with
  | ok a => exact .ok rfl
  | error e => exact .error (.of_fault (faults e rfl))

theorem matches_settleAll_afterValue :
    Matches (EndsAt p) (fun value progress => progress = .finished value)
      (settleAll b enclosures pending value)
      (afterValue b .sum enclosures pending value ⟨.endOfInput, p⟩) := by
  have settled : Matches (EndsAt p) Eq (settle b pending value) (settle b pending value) :=
    matches_endsAt_self fun _ failed => fault_of_complete (settle_eq_error failed)
  refine settled.bind ?_
  rintro value _ rfl
  cases enclosures with
  | nil => exact .ok rfl
  | cons => exact .error (.same nofun)

/-- The end of input is taken as if there were no more tokens. -/
theorem matches_finish_step :
    Matches (EndsAt p) (fun value progress => progress = .finished value) (finish b s)
      (step b .sum s ⟨.endOfInput, p⟩) := by
  obtain ⟨enclosures, pending, focus⟩ := s
  cases focus with
  | operand | argument => exact .error .brokenOff
  | name read position =>
    have looked : Matches (EndsAt p) Eq (Fault.locate position (b.reference read position))
        (Fault.locate position (b.reference read position)) := by
      refine matches_endsAt_self fun e failed => ?_
      obtain ⟨fault, rfl⟩ := locate_eq_error failed
      exact ⟨fault, position, rfl⟩
    refine looked.bind ?_
    rintro value _ rfl
    exact matches_settleAll_afterValue
  | value value => exact matches_settleAll_afterValue

/-! ### Runs -/

section Runs

variable (plain : ∀ lexeme ∈ tokens, lexeme.token ≠ .endOfInput) (p) (rest)

include plain

/-- A run goes through the tokens in front of the end without regard to what follows. -/
theorem matches_run_endOfInput (reached : Reached used s) :
    Matches (EndsAt p) (fun r r' => r'.1 = r.1 ∧ r'.2 = r.2 ++ ⟨.endOfInput, p⟩ :: rest)
      (run b .sum s tokens) (run b .sum s (tokens ++ ⟨.endOfInput, p⟩ :: rest)) := by
  induction tokens generalizing used s with
  | nil =>
    refine matches_finish_step.bind ?_
    rintro value _ rfl
    exact .ok ⟨rfl, rfl⟩
  | cons lexeme tokens ih =>
    obtain ⟨first, plain⟩ := List.forall_mem_cons.mp plain
    rw [List.cons_append, run, run]
    cases stepped : step b .sum s lexeme with
    | error e => exact .error (.same ((reached.refuses stepped).cause_ne first))
    | ok progress =>
      cases progress with
      | taken s' => exact ih plain (reached.step stepped)
      | finished value => exact .ok ⟨rfl, rfl⟩

theorem matches_assembleAll_endOfInput :
    Matches (EndsAt p) Eq (assembleAll b tokens)
      (assembleAll b (tokens ++ ⟨.endOfInput, p⟩ :: rest)) := by
  refine (matches_run_endOfInput p rest plain Reached.start).bind ?_
  rintro ⟨value, left⟩ ⟨value', left'⟩ ⟨same, split⟩
  obtain rfl : value' = value := same
  obtain rfl : left' = left ++ ⟨.endOfInput, p⟩ :: rest := split
  cases left with
  | nil => exact .ok rfl
  | cons next left =>
    obtain ⟨token, position⟩ := next
    cases token with
    | endOfInput => exact .ok rfl
    | _ => exact .error (.same nofun)

end Runs

end Assembly

open Assembly

variable {tokens : List Lexeme}

theorem matches_assembleStatement_endOfInput {α : Type} (b : Builder α)
    (plain : ∀ lexeme ∈ tokens, lexeme.token ≠ .endOfInput) (p : Nat) (rest : List Lexeme) :
    Matches (EndsAt p) Eq (assembleStatement b tokens)
      (assembleStatement b (tokens ++ ⟨.endOfInput, p⟩ :: rest)) := by
  by_cases assigns : BeginsAssignment tokens
  · obtain ⟨name, q, r, right, rfl⟩ := assigns
    have plain := (List.forall_mem_cons.mp (List.forall_mem_cons.mp plain).2).2
    refine (matches_assembleAll_endOfInput p rest plain).bind ?_
    rintro value _ rfl
    exact .ok rfl
  · have other : assembleStatement b tokens = assembleAll b tokens := by
      refine assembleStatement_eq_assembleAll ?_
      intro name q r right tokens_eq
      exact assigns ⟨name, q, r, right, tokens_eq⟩
    have other' : assembleStatement b (tokens ++ ⟨.endOfInput, p⟩ :: rest) =
        assembleAll b (tokens ++ ⟨.endOfInput, p⟩ :: rest) := by
      refine assembleStatement_eq_assembleAll ?_
      intro name q r right tokens_eq
      -- Neither the name nor the sign is the end of input.
      match tokens with
      | [] => cases tokens_eq
      | [_] => cases tokens_eq
      | _ :: _ :: others =>
        cases tokens_eq
        exact assigns ⟨name, q, r, others, rfl⟩
    rw [other, other']
    exact matches_assembleAll_endOfInput p rest plain

/-- Behind the first end of input nothing counts: the answer is the same, and so are the bindings
after it. Tokens without an end have that answer too, but if an operand is missing at the end of
the tokens, it is missing at 0. -/
theorem evaluateTokens_endOfInput (plain : ∀ lexeme ∈ tokens, lexeme.token ≠ .endOfInput)
    (p : Nat) (rest : List Lexeme) (bindings : Bindings) :
    let ended := evaluateTokens (tokens ++ [⟨.endOfInput, p⟩]) bindings
    (evaluateTokens (tokens ++ ⟨.endOfInput, p⟩ :: rest) bindings = ended ∧
      bindings.after (evaluateTokens (tokens ++ ⟨.endOfInput, p⟩ :: rest) bindings) =
        bindings.after ended) ∧
    Matches (EndsAt p) Eq (evaluateTokens tokens bindings) ended ∧
    bindings.after (evaluateTokens tokens bindings) = bindings.after ended := by
  intro ended
  have alone : Matches (EndsAt p) Eq (evaluateTokens tokens bindings) ended :=
    matches_assembleStatement_endOfInput _ plain p []
  have followed : Matches (EndsAt p) Eq (evaluateTokens tokens bindings)
      (evaluateTokens (tokens ++ ⟨.endOfInput, p⟩ :: rest) bindings) :=
    matches_assembleStatement_endOfInput _ plain p rest
  have same : evaluateTokens (tokens ++ ⟨.endOfInput, p⟩ :: rest) bindings = ended :=
    followed.unique alone fun _ _ _ => EndsAt.unique
  exact ⟨⟨same, congrArg _ same⟩, alone, after_eq_of_matches alone⟩

/-- A sum breaks off, and what stands behind the end would have completed it. -/
theorem evaluateTokens_endOfInput_sum :
    evaluateTokens [⟨.number 2.0, 0⟩, ⟨.plus, 1⟩, ⟨.endOfInput, 2⟩, ⟨.number 3.0, 3⟩] .initial =
      .error ⟨.unexpectedEnd, 2⟩ ∧
    evaluateTokens [⟨.number 2.0, 0⟩, ⟨.plus, 1⟩] .initial = .error ⟨.unexpectedEnd, 0⟩ ∧
    Matches (EndsAt 2) Eq (evaluateTokens [⟨.number 2.0, 0⟩, ⟨.plus, 1⟩] .initial)
      (evaluateTokens [⟨.number 2.0, 0⟩, ⟨.plus, 1⟩, ⟨.endOfInput, 2⟩] .initial) := by
  have plain : ∀ lexeme ∈ [Lexeme.mk (.number 2.0) 0, ⟨.plus, 1⟩], lexeme.token ≠ .endOfInput := by
    simp
  obtain ⟨⟨same, -⟩, alone, -⟩ :=
    evaluateTokens_endOfInput plain 2 [⟨.number 3.0, 3⟩] .initial
  exact ⟨same.trans rfl, rfl, alone⟩

end Calculator
