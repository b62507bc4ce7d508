import Calculator.Assembly.Descent
import Calculator.Proofs.Statement

/-!
The levels of recursive descent come to an end.

A descent and the assembly of the same tokens agree: in whatever place an expression is waited for,
the assembly goes on with what the descent has read, or fails with its error (`Answers`). This is
shown call by call, and with it that each call leaves fewer tokens. A call that takes no token is
for a tighter level, so the levels end by induction on the number of tokens, and five calls for
each token are deep enough (`Descent.run_read`).

What is read is an expression of the grammar, so it holds no end of input and no equals sign, and
as many closing parentheses as open ones (`Derives.countP_paren`). What is left cannot go on with
it (`Stops`).
-/

namespace Calculator

open Assembly

variable {α β γ : Type} {b : Builder α} {tokens rest : List Lexeme}

/-! ### Levels -/

section Levels

variable {op : Operator}

theorem stops_primary : Stops .primary rest := by
  intro lexeme next op joins
  cases op <;> decide

/-- No operator makes an expression that is a negation but no power. -/
theorem stops_negation_iff : Stops .negation rest ↔ Stops .power rest := by
  have same (op : Operator) : Level.negation ≤ op.level ↔ Level.power ≤ op.level := by
    cases op <;> decide
  simp only [Stops, same]

theorem stops_power (noCaret : ∀ p tail, rest ≠ ⟨.caret, p⟩ :: tail) : Stops .power rest := by
  intro lexeme next op joins belongs
  obtain ⟨token, p⟩ := lexeme
  obtain ⟨tail, rfl⟩ := List.head?_eq_some_iff.mp next
  cases op with
  | pow => cases token <;> first | exact noCaret p tail rfl | cases joins
  | _ => exact absurd belongs (by decide)

theorem Operator.rightLevel_eq {op op' : Operator} (same : op.level = op'.level) :
    op.rightLevel = op'.rightLevel := by
  cases op <;> cases op' <;> revert same <;> decide

/-- What ends the right operand of an operation ends the operation, unless it is an operator of the
same level. -/
theorem Stops.of_rightLevel (stops : Stops op.rightLevel rest)
    (other : ∀ lexeme ∈ rest.head?, ∀ next ∈ lexeme.token.joins?, next.level ≠ op.level) :
    Stops op.level rest := by
  intro lexeme next op' joins
  have looser := stops lexeme next op' joins
  have different := other lexeme next op' joins
  cases op <;> cases op' <;> revert looser different <;> decide

theorem Assembly.Pending.completes {p : Pending α} (stops : Stops p.operandLevel rest) :
    Completes p.level rest := by
  cases p with
  | negation position => exact Stops.completes stops
  | operation op left position => exact Stops.completes_level stops

/-- Within parentheses an expression that ends is followed by the closing one, or by what is blamed
for its absence. -/
theorem Assembly.run_close {goal : Level} {e : Enclosure α} {enclosures : List (Enclosure α)}
    {value : α} (stops : Stops .sum rest) :
    run b goal ⟨e :: enclosures, [], .value value⟩ rest =
      (Descent.close e.opened rest >>= fun rest => e.bracket.close b value >>= fun closed =>
        run b goal ⟨enclosures, e.outside, .value closed⟩ rest) := by
  cases rest with
  | nil => rfl
  | cons lexeme rest =>
    obtain ⟨token, position⟩ := lexeme
    have loose : token.joins? = none :=
      Option.eq_none_iff_forall_not_mem.mpr fun op joins =>
        stops ⟨token, position⟩ rfl op joins (Level.sum_le _)
    cases token with
    | closeParen => exact run_closeParen
    | assign | blank | endOfInput => rfl
    | _ => cases loose

end Levels

namespace Descent

/-! ### Answers -/

/-- What is open around an expression. -/
abbrev Place (α : Type) := List (Enclosure α) × List (Pending α)

/-- An expression is waited for. -/
def awaiting (place : Place α) : State α :=
  ⟨place.1, place.2, .operand⟩

/-- An expression has been read. -/
def holding (value : α) (place : Place α) : State α :=
  ⟨place.1, place.2, .value value⟩

/-- A descent into some tokens has an answer, and the assembly goes on with it, from the state
`start` and in every place that accepts an expression of a level. The tokens that are left are
fewer than `bound`, and an expression of the level `stop` ends before them. -/
structure Answers (b : Builder α) (start : Place α → State α) (tokens : List Lexeme)
    (accepted stop : Level) (bound : Nat) (descent : Descent (α × List Lexeme))
    (answer : Except ParseError (α × List Lexeme)) : Prop where
  ends : descent.run = some answer
  agrees {goal : Level} {place : Place α} : wanted goal place.1 place.2 ≤ accepted →
    run b goal (start place) tokens =
      (answer >>= fun r => run b goal (holding r.1 place) r.2)
  stops {value : α} {rest : List Lexeme} : answer = .ok (value, rest) → Stops stop rest
  fewer {value : α} {rest : List Lexeme} : answer = .ok (value, rest) → rest.length < bound

/-- A descent that has an answer. -/
def Ends (b : Builder α) (start : Place α → State α) (tokens : List Lexeme)
    (accepted stop : Level) (bound : Nat) (descent : Descent (α × List Lexeme)) : Prop :=
  ∃ answer, Answers b start tokens accepted stop bound descent answer

section Ends

variable {start start' : Place α → State α} {tokens' : List Lexeme}
  {accepted accepted' stop stop' : Level} {bound bound' : Nat}
  {descent : Descent (α × List Lexeme)}

theorem run_bind_ok {x : Descent β} {a : β} (ends : x.run = some (.ok a)) (f : β → Descent γ) :
    (x >>= f).run = (f a).run := by
  simp only [ExceptT.run_bind, ends]
  rfl

theorem run_bind_error {x : Descent β} {e : ParseError} (ends : x.run = some (.error e))
    (f : β → Descent γ) : (x >>= f).run = some (.error e) := by
  simp only [ExceptT.run_bind, ends]
  rfl

theorem length_lt_of_close {opened : Nat} {rest' : List Lexeme}
    (closes : close opened rest = .ok rest') : rest'.length < rest.length := by
  unfold close at closes
  split at closes
  · cases closes
    exact Nat.lt_succ_self _
  · cases closes
  · cases closes

theorem ends_ok {value : α} (ends : descent.run = some (.ok (value, rest)))
    (agrees : ∀ {goal place}, wanted goal place.1 place.2 ≤ accepted →
      run b goal (start place) tokens = run b goal (holding value place) rest)
    (stops : Stops stop rest) (fewer : rest.length < bound) :
    Ends b start tokens accepted stop bound descent := by
  refine ⟨.ok (value, rest), ends, agrees, ?_, ?_⟩
  · rintro _ _ ⟨⟩
    exact stops
  · rintro _ _ ⟨⟩
    exact fewer

theorem ends_error {e : ParseError} (ends : descent.run = some (.error e))
    (fails : ∀ {goal place}, wanted goal place.1 place.2 ≤ accepted →
      run b goal (start place) tokens = .error e) :
    Ends b start tokens accepted stop bound descent :=
  ⟨.error e, ends, fails, nofun, nofun⟩

namespace Ends

theorem weaken (inner : Ends b start tokens accepted stop bound descent)
    (looser : accepted' ≤ accepted) (stops : ∀ {rest}, Stops stop rest → Stops stop' rest)
    (more : bound ≤ bound') : Ends b start tokens accepted' stop' bound' descent := by
  obtain ⟨answer, answers⟩ := inner
  refine ⟨answer, answers.ends, ?_, ?_, ?_⟩
  · intro goal place accepts
    exact answers.agrees (Level.le_trans accepts looser)
  · intro value rest isOk
    exact stops (answers.stops isOk)
  · intro value rest isOk
    exact Nat.lt_of_lt_of_le (answers.fewer isOk) more

/-- The assembly takes a step, and the descent does not call. -/
theorem of_run_eq (inner : Ends b start' tokens' accepted stop bound descent)
    (steps : ∀ {goal place}, wanted goal place.1 place.2 ≤ accepted →
      run b goal (start place) tokens = run b goal (start' place) tokens') :
    Ends b start tokens accepted stop bound descent := by
  obtain ⟨answer, answers⟩ := inner
  refine ⟨answer, answers.ends, ?_, answers.stops, answers.fewer⟩
  intro goal place accepts
  rw [steps accepts, answers.agrees accepts]

/-- Before a descent goes on, something is looked at. -/
theorem after {result : Except ParseError β} {next : β → Descent (α × List Lexeme)}
    (later : β → Place α → State α) (tokens' : List Lexeme)
    (inner : ∀ a, Ends b (later a) tokens' accepted stop bound (next a))
    (steps : ∀ {goal place}, wanted goal place.1 place.2 ≤ accepted →
      run b goal (start place) tokens =
        (result >>= fun a => run b goal (later a place) tokens')) :
    Ends b start tokens accepted stop bound (of result >>= next) := by
  cases result with
  | error e => exact ends_error rfl steps
  | ok a => exact (inner a).of_run_eq steps

/-- One descent after the other: `first` reads in a place within the given one, and `next` goes on
from what it has read. -/
theorem bind {first : Descent (α × List Lexeme)}
    {next : α × List Lexeme → Descent (α × List Lexeme)} (enter : Place α → Place α)
    (inner : Ends b start tokens accepted stop bound first)
    (enters : ∀ {goal place}, wanted goal place.1 place.2 ≤ accepted' →
      wanted goal (enter place).1 (enter place).2 ≤ accepted)
    (goesOn : ∀ {value rest}, Stops stop rest → rest.length < bound →
      Ends b (fun place => holding value (enter place)) rest accepted' stop' bound'
        (next (value, rest))) :
    Ends b (fun place => start (enter place)) tokens accepted' stop' bound' (first >>= next) := by
  obtain ⟨answer, answers⟩ := inner
  cases answer with
  | error e =>
    refine ends_error (run_bind_error answers.ends next) ?_
    intro goal place accepts
    exact answers.agrees (enters accepts)
  | ok r =>
    obtain ⟨value, rest⟩ := r
    obtain ⟨answer, later⟩ := goesOn (answers.stops rfl) (answers.fewer rfl)
    refine ⟨answer, (run_bind_ok answers.ends next).trans later.ends, ?_, later.stops, later.fewer⟩
    intro goal place accepts
    rw [answers.agrees (enters accepts), ok_bind]
    exact later.agrees accepts

/-- The operand of a pending operation is read, and the operation is carried out. -/
theorem complete {p : Pending α} {operand : Descent (α × List Lexeme)}
    (inner : Ends b awaiting tokens p.operandLevel p.operandLevel bound operand) :
    Ends b (fun place => awaiting (place.1, p :: place.2)) tokens accepted p.operandLevel bound
      (operand >>= fun r => do return (← of (p.complete b r.1), r.2)) := by
  refine inner.bind (fun place => (place.1, p :: place.2)) (fun _ => Level.le_refl _) ?_
  intro value rest stops fewer
  refine after holding rest ?_ ?_
  · intro completed
    exact ends_ok rfl (fun _ => rfl) stops fewer
  · intro goal place accepts
    exact run_complete (p.completes stops)

/-- What stands in parentheses is read, and the parentheses are closed. -/
theorem enclose (bracket : Bracket) (opened : Nat) {inside : Descent (α × List Lexeme)}
    (inner : Ends b awaiting tokens .sum .sum bound inside) :
    Ends b (fun place => awaiting (⟨bracket, opened, place.2⟩ :: place.1, [])) tokens accepted
      .primary bound (inside >>= fun r => do
        let rest ← of (close opened r.2)
        return (← of (bracket.close b r.1), rest)) := by
  refine inner.bind (fun place => (⟨bracket, opened, place.2⟩ :: place.1, []))
    (fun _ => Level.le_refl _) ?_
  intro value rest stops fewer
  cases closes : close opened rest with
  | error e =>
    refine ends_error rfl ?_
    intro goal place accepts
    show run b goal ⟨_ :: _, [], .value value⟩ rest = _
    rw [run_close stops, closes, error_bind]
  | ok rest' =>
    show Ends b _ _ _ _ _ (of (bracket.close b value) >>= fun closed => pure (closed, rest'))
    refine after holding rest' ?_ ?_
    · intro closed
      exact ends_ok rfl (fun _ => rfl) stops_primary
        (Nat.lt_trans (length_lt_of_close closes) fewer)
    · intro goal place accepts
      show run b goal ⟨_ :: _, [], .value value⟩ rest = _
      rw [run_close stops, closes, ok_bind]
      rfl

end Ends

end Ends

/-! ### Levels -/

/-- With enough depth, a level reads what the assembly reads. -/
def Reads (b : Builder α) (level : Level) (tokens : List Lexeme) : Prop :=
  ∀ depth, 5 * tokens.length + (7 - level.rank) ≤ depth →
    Ends b awaiting tokens level level tokens.length (read b depth level tokens)

/-- All levels that may begin with a sign read lists of fewer than `n` tokens. -/
def ReadsBelow (b : Builder α) (n : Nat) : Prop :=
  ∀ tokens : List Lexeme, tokens.length < n → ∀ level, level ≤ .negation → Reads b level tokens

section Calls

variable {n depth : Nat}

theorem ends_readRight (accepted : Level) (below : ReadsBelow b n) (op : Operator) (left : α)
    (position : Nat) (fewer : tokens.length < n) (deep : 5 * tokens.length + 6 ≤ depth) :
    Ends b (fun place => awaiting (place.1, .operation op left position :: place.2)) tokens
      accepted op.rightLevel tokens.length (readRight b depth op left position tokens) := by
  cases depth with
  | zero => omega
  | succ depth =>
    have tight : 7 - op.rightLevel.rank ≤ 5 := by cases op <;> decide
    have reads := below tokens fewer op.rightLevel op.rightLevel_le_negation depth (by omega)
    rw [readRight]
    exact Ends.complete (p := .operation op left position) reads

/-- No operator of the level follows, so the expression is complete. -/
theorem ends_complete {op : Operator} {left : α} (stops : Stops op.rightLevel tokens)
    (other : ∀ lexeme ∈ tokens.head?, ∀ next ∈ lexeme.token.joins?, next.level ≠ op.level) :
    Ends b (holding left) tokens op.level op.level (tokens.length + 1) (pure (left, tokens)) :=
  ends_ok rfl (fun _ => rfl) (stops.of_rightLevel other) (Nat.lt_succ_self _)

/-- An operator of the level and its right operand are read, and fewer tokens are left to go on
with. -/
theorem ends_continue {op next : Operator} {left : α} {right : Descent (α × List Lexeme)}
    (same : next.level = op.level)
    (joined : Ends b (holding left) tokens op.level next.rightLevel tokens.length right)
    (goesOn : ∀ {value rest}, Stops op.rightLevel rest → rest.length < tokens.length →
      Ends b (holding value) rest op.level op.level (rest.length + 1)
        (readOn b depth op.level value rest)) :
    Ends b (holding left) tokens op.level op.level (tokens.length + 1)
      (right >>= fun r => readOn b depth op.level r.1 r.2) := by
  refine joined.bind id id ?_
  intro value rest stops shorter
  rw [Operator.rightLevel_eq same] at stops
  exact (goesOn stops shorter).weaken (Level.le_refl _) id (by omega)

theorem ends_readOn (below : ReadsBelow b n) (op : Operator) {left : α}
    (stops : Stops op.rightLevel tokens) (fewer : tokens.length < n)
    (deep : 5 * tokens.length + 7 ≤ depth) :
    Ends b (holding left) tokens op.level op.level (tokens.length + 1)
      (readOn b depth op.level left tokens) := by
  induction depth generalizing left tokens with
  | zero => omega
  | succ depth ih =>
    cases tokens with
    | nil => exact ends_complete stops nofun
    | cons lexeme rest =>
      have count : (lexeme :: rest).length = rest.length + 1 := rfl
      have goesOn {value : α} {rest' : List Lexeme} (stops : Stops op.rightLevel rest')
          (shorter : rest'.length < (lexeme :: rest).length) :
          Ends b (holding value) rest' op.level op.level (rest'.length + 1)
            (readOn b depth op.level value rest') :=
        ih stops (by omega) (by omega)
      rw [readOn]
      cases sign : lexeme.token.operator? with
      | some next =>
        by_cases same : next.level = op.level
        · simp only [if_pos same]
          have shorter : rest.length < n := by omega
          have deepEnough : 5 * rest.length + 6 ≤ depth := by omega
          have right := ends_readRight op.level below next left lexeme.position shorter deepEnough
          refine ends_continue same ((right.of_run_eq ?_).weaken (Level.le_refl _) id ?_) goesOn
          · intro goal place accepts
            exact run_join sign (same ▸ accepts)
          · exact Nat.le_succ _
        · simp only [if_neg same]
          refine ends_complete stops ?_
          rintro _ ⟨⟩ next' joins
          cases (Token.joins?_of_operator? sign).symm.trans joins
          exact same
      | none =>
        by_cases begins : lexeme.token.startsOperand ∧ op.level = .product
        · simp only [if_pos begins]
          -- The token begins the right factor, and nothing has been taken yet.
          have right := ends_readRight op.level below .impliedMul left lexeme.position fewer
            (show 5 * (lexeme :: rest).length + 6 ≤ depth by omega)
          have same : Operator.impliedMul.level = op.level := begins.2.symm
          refine ends_continue same (right.of_run_eq ?_) goesOn
          intro goal place accepts
          exact run_impliedProduct begins.1 (begins.2 ▸ accepts)
        · simp only [if_neg begins]
          refine ends_complete stops ?_
          rintro _ ⟨⟩ next joins same
          rcases Token.joins?_eq_some joins with written | ⟨implied, rfl⟩
          · cases sign.symm.trans written
          · exact begins ⟨implied, same.symm⟩

/-- A sum or a product: what may be a right operand of its operators comes first. -/
theorem ends_chain {op : Operator} (looser : op.level ≤ op.rightLevel)
    (below : ReadsBelow b tokens.length) {first : Descent (α × List Lexeme)}
    (reads : Ends b awaiting tokens op.rightLevel op.rightLevel tokens.length first)
    (deep : 5 * tokens.length + 2 ≤ depth) :
    Ends b awaiting tokens op.level op.level tokens.length
      (first >>= fun r => readOn b depth op.level r.1 r.2) := by
  refine (reads.weaken looser id (Nat.le_refl _)).bind id id ?_
  intro value rest stops fewer
  exact (ends_readOn below op stops fewer (by omega)).weaken (Level.le_refl _) id fewer

theorem ends_readName {accepted : Level} {name : String} {position : Nat} (below : ReadsBelow b n)
    (fewer : tokens.length < n) (deep : 5 * tokens.length + 6 ≤ depth) :
    Ends b (fun place => ⟨place.1, place.2, .name name position⟩) tokens accepted .primary
      (tokens.length + 1) (readName b depth name position tokens) := by
  cases depth with
  | zero => omega
  | succ depth =>
    unfold readName
    split
    · rename_i opened rest
      simp only [List.length_cons] at fewer deep ⊢
      refine Ends.after (fun _ place => ⟨place.1, place.2, .argument name position opened⟩) rest ?_
        fun _ => run_callable
      intro callable
      rcases eq_closeParen_or_begins rest with ⟨closed, rest, rfl⟩ | begins
      · refine Ends.after holding rest ?_ fun _ => run_emptyCall
        intro value
        exact ends_ok rfl (fun _ => rfl) stops_primary (by simp only [List.length_cons]; omega)
      · split
        · exact absurd rfl (begins _ rfl)
        · have argument := below rest (by omega) .sum (by decide) depth
            (by simp only [Level.rank]; omega)
          exact ((argument.enclose (.call name position) opened).of_run_eq
            fun _ => run_argument begins).weaken (Level.le_refl _) id (by omega)
    · exact ends_error rfl fun _ => rfl
    · rename_i notOpen notAssign
      refine Ends.after holding tokens ?_ fun _ => run_reference ?_
      · intro value
        exact ends_ok rfl (fun _ => rfl) stops_primary (Nat.lt_succ_self _)
      · intro lexeme next
        obtain ⟨token, p⟩ := lexeme
        obtain ⟨rest, rfl⟩ := List.head?_eq_some_iff.mp next
        constructor
        · rintro rfl
          exact notOpen p rest rfl
        · rintro rfl
          exact notAssign p rest rfl

end Calls

/-! ### The levels in turn -/

section Levels

variable (below : ReadsBelow b tokens.length)

include below

theorem reads_primary (unsigned : ∀ p rest, tokens ≠ ⟨.minus, p⟩ :: rest) :
    Reads b .primary tokens := by
  intro depth deep
  cases depth with
  | zero => cases deep
  | succ depth =>
    unfold read
    simp only [Level.rank] at deep ⊢
    split
    · exact ends_ok rfl (fun _ => run_number) stops_primary (Nat.lt_succ_self _)
    · rename_i opened rest
      simp only [List.length_cons] at deep ⊢
      have inside := below rest (Nat.lt_succ_self _) .sum (by decide) depth
        (by simp only [Level.rank]; omega)
      exact ((inside.enclose .group opened).of_run_eq
        fun _ => run_openParen).weaken (Level.le_refl _) id (Nat.le_succ _)
    · rename_i name position rest
      simp only [List.length_cons] at deep ⊢
      exact (ends_readName below (Nat.lt_succ_self _) (by omega)).of_run_eq fun _ => run_identifier
    · rename_i lexeme rest notNumber notOpen notName
      refine ends_error rfl ?_
      intro goal place accepts
      obtain ⟨token, p⟩ := lexeme
      cases token with
      | number value => exact absurd rfl (notNumber value p)
      | openParen => exact absurd rfl (notOpen p)
      | identifier name => exact absurd rfl (notName name p)
      | minus => exact absurd rfl (unsigned p rest)
      | _ => rfl
    · exact ends_error rfl fun _ => rfl

theorem reads_power (unsigned : ∀ p rest, tokens ≠ ⟨.minus, p⟩ :: rest) :
    Reads b .power tokens := by
  intro depth deep
  cases depth with
  | zero => cases deep
  | succ depth =>
    unfold read
    simp only [Level.rank] at deep ⊢
    have base := reads_primary below unsigned depth (by simp only [Level.rank]; omega)
    refine (base.weaken (Level.le_primary .power) id (Nat.le_refl _)).bind id id ?_
    intro value rest _ fewer
    simp only
    split
    · rename_i position rest _
      simp only [List.length_cons] at fewer
      have shorter : rest.length < tokens.length := by omega
      have deepEnough : 5 * rest.length + 6 ≤ depth := by omega
      have right := ends_readRight .power below .pow value position shorter deepEnough
      refine (right.of_run_eq ?_).weaken (Level.le_refl _) stops_negation_iff.mp (by omega)
      intro goal place accepts
      exact run_join rfl accepts
    · rename_i noCaret
      exact ends_ok rfl (fun _ => rfl) (stops_power noCaret) fewer

theorem reads_negation : Reads b .negation tokens := by
  intro depth deep
  cases depth with
  | zero => cases deep
  | succ depth =>
    unfold read
    simp only [Level.rank] at deep ⊢
    split
    · rename_i position rest
      simp only [List.length_cons] at deep ⊢
      have operand := below rest (Nat.lt_succ_self _) .negation (by decide) depth
        (by simp only [Level.rank]; omega)
      exact ((Ends.complete (p := .negation position) operand).of_run_eq
        fun accepts => run_minus accepts).weaken (Level.le_refl _) id (Nat.le_succ _)
    · rename_i unsigned
      have power := reads_power below unsigned depth (by simp only [Level.rank]; omega)
      exact power.weaken (by decide) stops_negation_iff.mpr (Nat.le_refl _)

theorem reads_product : Reads b .product tokens := by
  intro depth deep
  cases depth with
  | zero => cases deep
  | succ depth =>
    unfold read
    simp only [Level.rank] at deep ⊢
    have factor := reads_negation below depth (by simp only [Level.rank]; omega)
    exact ends_chain (show Operator.mul.level ≤ .negation by decide) below factor (by omega)

theorem reads_sum : Reads b .sum tokens := by
  intro depth deep
  cases depth with
  | zero => cases deep
  | succ depth =>
    unfold read
    simp only [Level.rank] at deep ⊢
    have product := reads_product below depth (by simp only [Level.rank]; omega)
    exact ends_chain (show Operator.add.level ≤ .product by decide) below product (by omega)

end Levels

theorem readsBelow (b : Builder α) (n : Nat) : ReadsBelow b n := by
  induction n with
  | zero =>
    intro tokens fewer
    exact absurd fewer (Nat.not_lt_zero _)
  | succ n ih =>
    intro tokens fewer level signed
    have below : ReadsBelow b tokens.length := fun tokens' fewer' =>
      ih tokens' (Nat.lt_of_lt_of_le fewer' (Nat.le_of_lt_succ fewer))
    cases level with
    | sum => exact reads_sum below
    | product => exact reads_product below
    | negation => exact reads_negation below
    | power | primary => exact absurd signed (by decide)

/-- Five calls for each token, and six, are deep enough for every level: the descent then ends, and
with what the assembly comes to. -/
theorem run_read {level : Level} {depth : Nat} (deep : 5 * tokens.length + 6 ≤ depth) :
    (read b depth level tokens).run = some (assemble b level tokens) := by
  have agrees (reads : Reads b level tokens) :
      (read b depth level tokens).run = some (assemble b level tokens) := by
    have enough : 7 - level.rank ≤ 6 := by cases level <;> decide
    obtain ⟨answer, answers⟩ := reads depth (by omega)
    have assembled : assemble b level tokens = _ :=
      @answers.agrees level ([], []) (Level.le_refl _)
    rw [answers.ends, assembled]
    cases answer with
    | error e => rfl
    | ok r => rw [ok_bind, holding, run_stop (answers.stops rfl)]
  by_cases signed : level ≤ .negation
  · exact agrees (readsBelow b _ tokens (Nat.lt_succ_self _) level signed)
  · have below := readsBelow b tokens.length
    by_cases sign : ∃ p rest, tokens = ⟨.minus, p⟩ :: rest
    · obtain ⟨p, rest, rfl⟩ := sign
      obtain ⟨depth, rfl⟩ := Nat.exists_eq_add_of_le' (show 2 ≤ depth by omega)
      have refused : assemble b level (⟨.minus, p⟩ :: rest) = .error (.unexpected ⟨.minus, p⟩) :=
        run_minus_of_not_le signed
      rw [refused]
      cases level with
      | power | primary => rfl
      | _ => exact absurd (by decide) signed
    · have unsigned : ∀ p rest, tokens ≠ ⟨.minus, p⟩ :: rest := fun p rest isSign =>
        sign ⟨p, rest, isSign⟩
      cases level with
      | power => exact agrees (reads_power below unsigned)
      | primary => exact agrees (reads_primary below unsigned)
      | _ => exact absurd (by decide) signed

end Descent

/-! ### What is read and what is left -/

theorem Derives.countP_paren {level : Level} {f : Formula} {used : List Lexeme}
    (derives : Derives level f used) :
    used.countP (fun lexeme => lexeme.token = .openParen) =
      used.countP (fun lexeme => lexeme.token = .closeParen) := by
  induction derives with
  | number | reference | emptyCall => rfl
  | group _ ih | call _ ih | negation _ ih => simp [ih]
  | @operation _ sign _ _ _ _ _ writes _ _ ihl ihr =>
    have notParen : sign ≠ .openParen ∧ sign ≠ .closeParen := by
      constructor <;> (rintro rfl; cases writes)
    simp [notParen, ihl, ihr]
  | impliedProduct _ _ _ ihl ihr =>
    simp only [List.countP_append, List.countP_cons, List.countP_nil] at ihl ihr ⊢
    omega
  | looser _ _ ih => exact ih

/-- The tokens that can follow an expression of a level: whatever goes on with it has been taken. -/
theorem Stops.next {level : Level} {next : Lexeme} (stops : Stops level rest)
    (loose : level ≤ .power) (isNext : next ∈ rest.head?) :
    next.token ≠ .caret ∧
    (level ≤ .product →
      next.token ∉ [.star, .slash, .percent] ∧ ¬ next.token.startsOperand) ∧
    (level = .sum → next.token ∈ [.closeParen, .assign, .blank, .endOfInput]) := by
  have stops := stops next isNext
  obtain ⟨token, p⟩ := next
  refine ⟨?_, ?_, ?_⟩
  · rintro rfl
    exact stops .pow rfl loose
  · intro le
    constructor
    · simp only [List.mem_cons, List.not_mem_nil, or_false]
      rintro (rfl | rfl | rfl)
      · exact stops .mul rfl le
      · exact stops .div rfl le
      · exact stops .mod rfl le
    · intro begins
      exact stops .impliedMul (Token.joins?_of_startsOperand begins) le
  · rintro rfl
    have loosest : token.joins? = none :=
      Option.eq_none_iff_forall_not_mem.mpr fun op joins => stops op joins (Level.sum_le _)
    cases token with
    | closeParen | assign | blank | endOfInput => simp
    | _ => cases loosest

/-- Powers, negations, products and sums are read to the end: the descent of each level ends, for
all tokens and in all bindings, and comes to what the assembly comes to. If that is a tree, it
stands for the first tokens, one at least, without an end of input and without an equals sign, and
with as many open parentheses as closing ones. The tokens that are left do not begin with one that
goes on with an expression of that level. After a sum these are the closing parenthesis, the equals
sign, a blank and the end of input. -/
theorem assemble_longest (bindings : Bindings) {level : Level} (loose : level ≤ .power)
    (tokens : List Lexeme) :
    (∀ depth, 5 * tokens.length + 6 ≤ depth →
      (Descent.read (Tree.builder bindings) depth level tokens).run =
        some (assemble (Tree.builder bindings) level tokens)) ∧
    ∀ tree rest, assemble (Tree.builder bindings) level tokens = .ok (tree, rest) →
      ∃ used, tokens = used ++ rest ∧ used ≠ [] ∧
        (∀ lexeme ∈ used, lexeme.token ≠ .endOfInput ∧ lexeme.token ≠ .assign) ∧
        used.countP (fun lexeme => lexeme.token = .openParen) =
          used.countP (fun lexeme => lexeme.token = .closeParen) ∧
        ∀ next ∈ rest.head?,
          next.token ≠ .caret ∧
          (level ≤ .product →
            next.token ∉ [.star, .slash, .percent] ∧ ¬ next.token.startsOperand) ∧
          (level = .sum → next.token ∈ [.closeParen, .assign, .blank, .endOfInput]) := by
  constructor
  · intro depth deep
    exact Descent.run_read deep
  · intro tree rest assembled
    obtain ⟨f, used, rfl, derives, -, stops, -⟩ := assemble_eq_ok_iff.mp assembled
    refine ⟨used, rfl, derives.ne_nil, ?_, derives.countP_paren, ?_⟩
    · intro lexeme mem
      have inside := derives.inExpression lexeme mem
      constructor
      · intro ends
        rw [ends] at inside
        cases inside
      · intro assigns
        rw [assigns] at inside
        cases inside
    · intro next isNext
      exact stops.next loose isNext

/-- A product with a sum in it, before a sign: the sign is left, since it belongs to no factor. -/
theorem assemble_longest_product :
    let tokens : List Lexeme := [⟨.number 2.0, 0⟩, ⟨.openParen, 1⟩, ⟨.identifier "x", 2⟩,
      ⟨.plus, 3⟩, ⟨.number 1.0, 4⟩, ⟨.closeParen, 5⟩, ⟨.minus, 6⟩, ⟨.assign, 7⟩]
    let rest : List Lexeme := [⟨.minus, 6⟩, ⟨.assign, 7⟩]
    ∃ tree used,
      (Descent.read (Tree.builder (Bindings.empty.set "x" 1.0)) 46 .product tokens).run =
        some (.ok (tree, rest)) ∧
      tree.value = 4.0 ∧ tokens = used ++ rest ∧
      used.countP (fun lexeme => lexeme.token = .openParen) =
        used.countP (fun lexeme => lexeme.token = .closeParen) := by
  intro tokens rest
  have assembled : ∃ tree, assemble (Tree.builder (Bindings.empty.set "x" 1.0)) .product tokens =
      .ok (tree, rest) ∧ tree.value = 4.0 := ⟨_, rfl, rfl⟩
  obtain ⟨tree, assembled, value⟩ := assembled
  obtain ⟨ends, longest⟩ :=
    assemble_longest (Bindings.empty.set "x" 1.0) (show Level.product ≤ .power by decide) tokens
  obtain ⟨used, split, -, -, parens, -⟩ := longest tree rest assembled
  refine ⟨tree, used, ?_, value, split, parens⟩
  rw [ends 46 (by decide), assembled]

end Calculator
