import Calculator.Formula.Grammar
import Calculator.Proofs.Assembly

/-!
The assembly reads the grammar.

* `run_derives`: where an expression is waited for, tokens that the grammar derives are
  read as one operand. The run then has what the walk `Formula.build` gives, value or
  error, and stands before the tokens that follow.
* `readsOperand_of_run_ok`: conversely, whenever a run succeeds, it has read an
  expression of the grammar, and the longest one (`Stops`).

Both hold for every builder and within every state. `assemble_eq_ok_iff` joins them
for the expressions that `assemble` takes off a list of tokens.
-/

namespace Calculator

open Assembly

variable {α : Type} {b : Builder α} {level : Level} {f : Formula} {used : List Lexeme}

/-! ### The ends of an expression -/

namespace Derives

/-- An expression begins with an operand or a sign. -/
theorem head (derives : Derives level f used) :
    ∃ first tail, used = first :: tail ∧ (first.token.startsOperand ∨ first.token = .minus) := by
  induction derives with
  | number | reference | group | call | emptyCall => exact ⟨_, _, rfl, .inl rfl⟩
  | negation => exact ⟨_, _, rfl, .inr rfl⟩
  | operation _ _ _ ih =>
    obtain ⟨first, tail, rfl, begins⟩ := ih
    exact ⟨first, _, rfl, begins⟩
  | @impliedProduct _ _ left _ _ _ _ _ _ ih =>
    obtain ⟨first, tail, left_eq, begins⟩ := ih
    cases left with
    | nil =>
      cases left_eq
      exact ⟨_, _, rfl, begins⟩
    | cons =>
      cases left_eq
      exact ⟨_, _, rfl, begins⟩
  | looser _ _ ih => exact ih

theorem ne_nil (derives : Derives level f used) : used ≠ [] := by
  obtain ⟨first, tail, rfl, -⟩ := derives.head
  exact nofun

theorem head_ne_closeParen (derives : Derives level f used) (rest : List Lexeme) :
    ∀ next ∈ (used ++ rest).head?, next.token ≠ .closeParen := by
  obtain ⟨first, tail, rfl, begins⟩ := derives.head
  rintro _ ⟨⟩ closes
  rw [closes] at begins
  rcases begins with begins | begins <;> cases begins

/-- An expression ends with the end of an operand. -/
theorem last (derives : Derives level f used) :
    ∃ front last, used = front ++ [last] ∧ last.token.endsOperand := by
  induction derives with
  | number | reference => exact ⟨[], _, rfl, rfl⟩
  | group | call => exact ⟨_, _, rfl, rfl⟩
  | @emptyCall name p q r =>
    exact ⟨[⟨.identifier name, p⟩, ⟨.openParen, q⟩], _, rfl, rfl⟩
  | negation _ ih =>
    obtain ⟨front, last, rfl, ends⟩ := ih
    exact ⟨_ :: front, last, rfl, ends⟩
  | @operation _ sign _ _ left _ p _ _ _ _ ih =>
    obtain ⟨front, last, rfl, ends⟩ := ih
    exact ⟨left ++ ⟨sign, p⟩ :: front, last, by simp, ends⟩
  | @impliedProduct _ _ left _ before _ _ _ _ _ ih =>
    obtain ⟨front, last, right_eq, ends⟩ := ih
    exact ⟨left ++ before :: front, last, by simp [right_eq], ends⟩
  | looser _ _ ih => exact ih

end Derives

/-! ### Whatever the grammar derives is read -/

/-- Where an expression is waited for, tokens that the grammar derives are read as one
operand: the run goes on with what the walk over the expression gives. -/
theorem run_derives (derives : Derives level f used) :
    ∀ {goal : Level} {enclosures : List (Enclosure α)} {pending : List (Pending α)}
      {rest : List Lexeme}, wanted goal enclosures pending ≤ level → Completes level rest →
      Detached used rest →
      run b goal ⟨enclosures, pending, .operand⟩ (used ++ rest) =
        (f.build b >>= fun value => run b goal ⟨enclosures, pending, .value value⟩ rest) := by
  induction derives with
  | number =>
    intro goal enclosures pending rest _ _ _
    exact run_number
  | reference =>
    intro goal enclosures pending rest _ _ detached
    exact run_reference (detached _ _ rfl)
  | group _ ih =>
    intro goal enclosures pending rest _ _ _
    simp only [List.cons_append, List.append_assoc, List.nil_append]
    rw [run_openParen, ih (Level.le_refl _) completes_closeParen detached_closeParen]
    exact bind_congr fun value => run_closeParen
  | call argument ih =>
    intro goal enclosures pending rest _ _ _
    simp only [List.cons_append, List.append_assoc, List.nil_append, Formula.build, bind_assoc]
    rw [run_identifier, run_callable]
    apply bind_congr
    intro _
    rw [run_argument (argument.head_ne_closeParen _),
      ih (Level.le_refl _) completes_closeParen detached_closeParen]
    exact bind_congr fun value => run_closeParen
  | emptyCall =>
    intro goal enclosures pending rest _ _ _
    simp only [List.cons_append, List.nil_append, Formula.build, bind_assoc]
    rw [run_identifier, run_callable]
    exact bind_congr fun _ => run_emptyCall
  | negation _ ih =>
    intro goal enclosures pending rest accepted completes detached
    simp only [List.cons_append, Formula.build, bind_assoc]
    rw [run_minus accepted, ih (Level.le_refl _) completes detached.of_cons]
    exact bind_congr fun value => run_complete completes
  | @operation op _ _ _ _ _ _ sign _ _ ihl ihr =>
    intro goal enclosures pending rest accepted completes detached
    simp only [List.append_assoc, List.cons_append, Formula.build, bind_assoc]
    rw [ihl (Level.le_trans accepted op.level_le_leftLevel)
      (completes_leftLevel (Token.joins?_of_operator? sign) _) (detached_of_operator? sign)]
    apply bind_congr
    intro left
    rw [run_join sign accepted,
      ihr (Level.le_refl _) completes.rightLevel detached.of_append.of_cons]
    exact bind_congr fun right => run_complete completes
  | @impliedProduct f g left right before after implied _ _ ihl ihr =>
    intro goal enclosures pending rest accepted completes detached
    have begins := Token.startsOperand_of_impliesProduct implied
    have completesProduct : Completes Operator.impliedMul.level rest := completes
    rw [show left ++ before :: after :: right ++ rest =
      (left ++ [before]) ++ (after :: (right ++ rest)) by simp]
    rw [ihl accepted (completes_leftLevel (Token.joins?_of_startsOperand begins) _)
      (detached_of_impliesProduct implied)]
    simp only [Formula.build, bind_assoc]
    apply bind_congr
    intro left
    rw [run_impliedProduct begins accepted, ← List.cons_append,
      ihr (Level.le_refl _) completesProduct.rightLevel detached.of_append.of_cons]
    exact bind_congr fun right => run_complete completesProduct
  | looser le _ ih =>
    intro goal enclosures pending rest accepted completes detached
    exact ih (Level.le_trans accepted le) (completes.mono le) detached

/-! ### Whatever is read is derived by the grammar -/

/-- A successful run has read an expression of `level`: the tokens `used` spell it,
and the run goes on with its value before the tokens `rest`. -/
structure HasRead (b : Builder α) (goal : Level) (result : α × List Lexeme)
    (enclosures : List (Enclosure α)) (pending : List (Pending α)) (level : Level)
    (f : Formula) (used rest : List Lexeme) (value : α) : Prop where
  derives : Derives level f used
  builds : f.build b = .ok value
  detached : Detached used rest
  goesOn : run b goal ⟨enclosures, pending, .value value⟩ rest = .ok result

/-- The tokens begin with an expression as long as the one that is waited for can be. -/
def ReadsOperand (b : Builder α) (goal : Level) (result : α × List Lexeme)
    (enclosures : List (Enclosure α)) (pending : List (Pending α))
    (tokens : List Lexeme) : Prop :=
  ∃ f used rest value, tokens = used ++ rest ∧ Stops (wanted goal enclosures pending) rest ∧
    HasRead b goal result enclosures pending (wanted goal enclosures pending) f used rest value

/-- Whatever operand is waited for, it is read if there are at most `n` tokens. This is
what the induction on the number of tokens provides. -/
def ReadsOperands (b : Builder α) (goal : Level) (result : α × List Lexeme) (n : Nat) : Prop :=
  ∀ enclosures pending tokens, tokens.length ≤ n →
    run b goal ⟨enclosures, pending, .operand⟩ tokens = .ok result →
    ReadsOperand b goal result enclosures pending tokens

section Soundness

variable {goal : Level} {result : α × List Lexeme} {enclosures : List (Enclosure α)}
  {pending : List (Pending α)} {rest : List Lexeme} {value : α} {n position opened : Nat}
  {name : String}

namespace HasRead

theorem looser {looser : Level}
    (read : HasRead b goal result enclosures pending level f used rest value)
    (le : looser ≤ level) : HasRead b goal result enclosures pending looser f used rest value :=
  ⟨.looser le read.derives, read.builds, read.detached, read.goesOn⟩

/-- A pending operation whose operand has been read is carried out. -/
theorem carryOut {p : Pending α}
    (read : HasRead b goal result enclosures (p :: pending) level f used rest value)
    (completes : Completes p.level rest) :
    ∃ completed, p.complete b value = .ok completed ∧
      run b goal ⟨enclosures, pending, .value completed⟩ rest = .ok result :=
  bind_eq_ok.mp (run_complete completes ▸ read.goesOn)

/-- Within parentheses an expression is closed. -/
theorem close {e : Enclosure α}
    (read : HasRead b goal result (e :: enclosures) [] .sum f used rest value)
    (stops : Stops .sum rest) :
    ∃ position rest' closed, rest = ⟨.closeParen, position⟩ :: rest' ∧
      e.bracket.close b value = .ok closed ∧
      run b goal ⟨enclosures, e.outside, .value closed⟩ rest' = .ok result := by
  obtain ⟨position, rest', rfl⟩ := eq_closeParen_of_run_ok stops read.goesOn
  have closes := read.goesOn
  rw [run_closeParen] at closes
  obtain ⟨closed, close_eq, goesOn⟩ := bind_eq_ok.mp closes
  exact ⟨position, rest', closed, rfl, close_eq, goesOn⟩

/-! #### Primaries -/

theorem reference
    (h : run b goal ⟨enclosures, pending, .name name position⟩ rest = .ok result)
    (detached : Detached [⟨.identifier name, position⟩] rest) :
    ∃ value, HasRead b goal result enclosures pending .primary (.reference name position)
      [⟨.identifier name, position⟩] rest value := by
  rw [run_reference (detached name position rfl)] at h
  obtain ⟨value, builds, goesOn⟩ := bind_eq_ok.mp h
  exact ⟨value, .reference, builds, detached, goesOn⟩

/-- A name that does not stand alone is called: within an expression nothing is
assigned. -/
theorem callable (h : run b goal ⟨enclosures, pending, .name name position⟩ rest = .ok result)
    (attached : ¬ Detached [⟨.identifier name, position⟩] rest) :
    ∃ opened rest', rest = ⟨.openParen, opened⟩ :: rest' ∧
      Fault.locate position (b.callable name) = .ok () ∧
      run b goal ⟨enclosures, pending, .argument name position opened⟩ rest' = .ok result := by
  cases rest with
  | nil => exact absurd nofun attached
  | cons next rest =>
    obtain ⟨token, opened⟩ := next
    cases token with
    | openParen =>
      rw [run_callable] at h
      obtain ⟨⟨⟩, callable, goesOn⟩ := bind_eq_ok.mp h
      exact ⟨opened, rest, rfl, callable, goesOn⟩
    | assign => cases h
    | _ => exact absurd (detached_of_next Token.noConfusion Token.noConfusion) attached

theorem emptyCall {closed : Nat} (callable : Fault.locate position (b.callable name) = .ok ())
    (h : run b goal ⟨enclosures, pending, .argument name position opened⟩
      (⟨.closeParen, closed⟩ :: rest) = .ok result) :
    ∃ value, HasRead b goal result enclosures pending .primary (.emptyCall name position)
      [⟨.identifier name, position⟩, ⟨.openParen, opened⟩, ⟨.closeParen, closed⟩] rest value := by
  rw [run_emptyCall] at h
  obtain ⟨value, builds, goesOn⟩ := bind_eq_ok.mp h
  refine ⟨value, .emptyCall, ?_, detached_of_last [_, _] nofun, goesOn⟩
  rw [Formula.build, callable, ok_bind, builds]

theorem call (callable : Fault.locate position (b.callable name) = .ok ())
    (read : HasRead b goal result (⟨.call name position, opened, pending⟩ :: enclosures) []
      .sum f used rest value) (stops : Stops .sum rest) :
    ∃ closed rest' called, rest = ⟨.closeParen, closed⟩ :: rest' ∧
      HasRead b goal result enclosures pending .primary (.call name f position)
        (⟨.identifier name, position⟩ :: ⟨.openParen, opened⟩ :: used ++ [⟨.closeParen, closed⟩])
        rest' called := by
  obtain ⟨closed, rest', called, rfl, builds, goesOn⟩ := read.close stops
  refine ⟨closed, rest', called, rfl, .call read.derives, ?_, detached_of_last _ nofun, goesOn⟩
  rw [Formula.build, callable, ok_bind, read.builds, ok_bind]
  exact builds

theorem group
    (read : HasRead b goal result (⟨.group, opened, pending⟩ :: enclosures) [] .sum f used rest
      value) (stops : Stops .sum rest) :
    ∃ closed rest', rest = ⟨.closeParen, closed⟩ :: rest' ∧
      HasRead b goal result enclosures pending .primary f
        (⟨.openParen, opened⟩ :: used ++ [⟨.closeParen, closed⟩]) rest' value := by
  obtain ⟨closed, rest', _, rfl, ⟨⟩, goesOn⟩ := read.close stops
  exact ⟨closed, rest', rfl, .group read.derives, read.builds, detached_of_last _ nofun, goesOn⟩

/-! #### Operations -/

theorem negation
    (read : HasRead b goal result enclosures (.negation position :: pending) .negation f used rest
      value) (stops : Stops .negation rest) :
    ∃ negated, HasRead b goal result enclosures pending .negation (.negation f position)
      (⟨.minus, position⟩ :: used) rest negated := by
  obtain ⟨negated, carried, goesOn⟩ := read.carryOut stops.completes
  have detached := read.detached.append read.derives.ne_nil [⟨.minus, position⟩]
  refine ⟨negated, .negation read.derives, ?_, detached, goesOn⟩
  rw [Formula.build, read.builds, ok_bind]
  exact carried

/-- An operator after a complete operand takes the next operand to its right. -/
theorem join (operands : ReadsOperands b goal result n) {op : Operator} {lexeme : Lexeme}
    {tail : List Lexeme}
    (read : HasRead b goal result enclosures pending op.leftLevel f used (lexeme :: tail) value)
    (joins : lexeme.token.joins? = some op) (belongs : wanted goal enclosures pending ≤ op.level)
    (short : tail.length < n) :
    ∃ g right rest value, lexeme :: tail = right ++ rest ∧ right ≠ [] ∧ Completes op.level rest ∧
      HasRead b goal result enclosures pending op.level (.operation op f g lexeme.position)
        (used ++ right) rest value := by
  have pushed := read.goesOn
  rcases Token.joins?_eq_some joins with sign | ⟨begins, rfl⟩
  · rw [run_join sign belongs] at pushed
    obtain ⟨g, right, rest, operand, rfl, stops, rightRead⟩ :=
      operands _ _ tail (Nat.le_of_lt short) pushed
    have completes : Completes op.level rest := Stops.completes_level stops
    obtain ⟨completed, carried, goesOn⟩ := rightRead.carryOut completes
    refine ⟨g, lexeme :: right, rest, completed, rfl, nofun, completes,
      .operation sign read.derives rightRead.derives, ?_, ?_, goesOn⟩
    · rw [Formula.build, read.builds, ok_bind, rightRead.builds, ok_bind]
      exact carried
    · simpa using rightRead.detached.append rightRead.derives.ne_nil (used ++ [lexeme])
  · rw [run_impliedProduct begins belongs] at pushed
    obtain ⟨g, right, rest, operand, right_eq, stops, rightRead⟩ :=
      operands _ _ (lexeme :: tail) short pushed
    have completes : Completes Operator.impliedMul.level rest := Stops.completes_level stops
    obtain ⟨completed, carried, goesOn⟩ := rightRead.carryOut completes
    refine ⟨g, right, rest, completed, right_eq, rightRead.derives.ne_nil, completes,
      ?_, ?_, rightRead.detached.append rightRead.derives.ne_nil used, goesOn⟩
    · obtain ⟨first, end', rfl, -⟩ := rightRead.derives.head
      obtain ⟨front, before, rfl, ends⟩ := read.derives.last
      cases right_eq
      have implied := read.detached.impliesProduct ends begins
      show Derives .product _ _
      simpa using Derives.impliedProduct implied read.derives rightRead.derives
    · rw [Formula.build, read.builds, ok_bind, rightRead.builds, ok_bind]
      exact carried

/-- From a complete operand on, an expression takes all operators that it can. -/
theorem extend (operands : ReadsOperands b goal result n)
    (read : HasRead b goal result enclosures pending level f used rest value)
    (accepted : wanted goal enclosures pending ≤ level) (completes : Completes level rest)
    (short : rest.length ≤ n) :
    ReadsOperand b goal result enclosures pending (used ++ rest) := by
  induction h : rest.length using Nat.strongRecOn generalizing level f used rest value with
  | ind length ih =>
    have done (stops : Stops (wanted goal enclosures pending) rest) :
        ReadsOperand b goal result enclosures pending (used ++ rest) :=
      ⟨f, used, rest, value, rfl, stops, read.looser accepted⟩
    cases rest with
    | nil => exact done nofun
    | cons lexeme tail =>
      cases joins : lexeme.token.joins? with
      | none => exact done (stops_of_joins?_eq_none joins)
      | some op =>
        by_cases belongs : wanted goal enclosures pending ≤ op.level
        · have left := read.looser (completes lexeme rfl op joins)
          obtain ⟨g, right, rest, value', right_eq, nonempty, completes', read'⟩ :=
            left.join operands joins belongs short
          rw [right_eq, ← List.append_assoc]
          have length_eq := congrArg List.length right_eq
          have length_pos := List.length_pos_iff.mpr nonempty
          simp only [List.length_append] at length_eq
          exact ih rest.length (by omega) read' belongs completes' (by omega) rfl
        · exact done (stops_of_not_le joins belongs)

end HasRead

/-- Where an operand is waited for, a successful run reads an expression. -/
theorem readsOperand_of_run_ok (n : Nat) : ReadsOperands b goal result n := by
  induction n with
  | zero =>
    intro enclosures pending tokens short h
    cases List.length_eq_zero_iff.mp (Nat.le_zero.mp short)
    cases h
  | succ n ih =>
    intro enclosures pending tokens short h
    -- The first token is spent, so what follows a primary is read by the hypothesis.
    have primary {f : Formula} {used rest : List Lexeme} {value : α}
        (read : HasRead b goal result enclosures pending .primary f used rest value)
        (shorter : rest.length ≤ n) :
        ReadsOperand b goal result enclosures pending (used ++ rest) :=
      read.extend ih (Level.le_primary _) (completes_primary rest) shorter
    match tokens with
    | [] => cases h
    | ⟨token, position⟩ :: rest =>
      simp only [List.length_cons, Nat.add_le_add_iff_right] at short
      cases token with
      | number value => exact primary ⟨.number, rfl, detached_of_last [] nofun, h⟩ short
      | minus =>
        by_cases accepted : wanted goal enclosures pending ≤ .negation
        · rw [run_minus accepted] at h
          obtain ⟨f, used, rest, value, rfl, stops, read⟩ := ih _ _ rest short h
          obtain ⟨negated, negation⟩ := read.negation stops
          exact negation.extend ih accepted stops.completes (by simp at short; omega)
        · rw [run_minus_of_not_le accepted] at h
          cases h
      | openParen =>
        rw [run_openParen] at h
        obtain ⟨f, used, rest, value, rfl, stops, read⟩ := ih _ _ rest short h
        obtain ⟨closed, rest, rfl, group⟩ := read.group stops
        simpa using primary group (by simp at short; omega)
      | identifier name =>
        rw [run_identifier] at h
        by_cases detached : Detached [⟨.identifier name, position⟩] rest
        · obtain ⟨value, read⟩ := HasRead.reference h detached
          exact primary read short
        · obtain ⟨opened, rest, rfl, callable, h⟩ := HasRead.callable h detached
          rcases eq_closeParen_or_begins rest with ⟨closed, rest, rfl⟩ | begins
          · obtain ⟨value, read⟩ := HasRead.emptyCall callable h
            exact primary read (by simp at short; omega)
          · rw [run_argument begins] at h
            obtain ⟨f, used, rest, value, rfl, stops, read⟩ :=
              ih _ _ rest (by simp at short; omega) h
            obtain ⟨closed, rest, called, rfl, call⟩ := read.call callable stops
            simpa using primary call (by simp at short; omega)
      | _ => cases h

end Soundness

/-! ### Expressions at the front of a list of tokens -/

/-- `assemble` takes the longest expression of a level off a list of tokens. -/
theorem assemble_eq_ok_iff {goal : Level} {tokens rest : List Lexeme} {value : α} :
    assemble b goal tokens = .ok (value, rest) ↔
      ∃ f used, tokens = used ++ rest ∧ Derives goal f used ∧ f.build b = .ok value ∧
        Stops goal rest ∧ Detached used rest := by
  constructor
  · intro h
    obtain ⟨f, used, rest', value', rfl, stops, read⟩ :=
      readsOperand_of_run_ok tokens.length _ _ tokens (Nat.le_refl _) h
    have stops : Stops goal rest' := stops
    cases (run_stop stops).symm.trans read.goesOn
    exact ⟨f, used, rfl, read.derives, read.builds, stops, read.detached⟩
  · rintro ⟨f, used, rfl, derives, builds, stops, detached⟩
    have reads : run b goal .start (used ++ rest) = _ :=
      run_derives derives (Level.le_refl _) stops.completes detached
    rw [assemble, reads, builds, ok_bind, run_stop stops]

end Calculator
