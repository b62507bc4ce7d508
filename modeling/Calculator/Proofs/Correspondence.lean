import Calculator.Proofs.Statement
import Calculator.Proofs.SyntaxError
import Calculator.Tree.Relocation
import Mathlib.Data.List.Forall2

/-!
Two assemblies side by side.

The assembly looks at the tokens and not at what it builds, nor at where the tokens stand. So
the same tokens lead two builders through corresponding states, whatever relation there is
between their positions and between what they build (`Correspondence`), as long as each
operation of the builders keeps it. `matches_step` is the step of this, and
`matches_run` the whole run: both results come about in the same way, and an error has
the same cause at corresponding positions, unless the tokens run out (`Failures`).

A builder has to know the names that are read. These are the names that no parenthesis follows,
so the states correspond in view of the tokens to come.

Trees correspond that differ in their positions only. Two evaluations build such trees if their
bindings agree on the names among the tokens (`matches_evaluateTokens`).
-/

namespace Calculator

/-! ### Results -/

/-- Two computations that both go well or both fail, with related results. -/
inductive Matches {ε ε' α β : Type} (errors : ε → ε' → Prop) (values : α → β → Prop) :
    Except ε α → Except ε' β → Prop where
  | ok {a : α} {b : β} : values a b → Matches errors values (.ok a) (.ok b)
  | error {e : ε} {e' : ε'} : errors e e' → Matches errors values (.error e) (.error e')

namespace Matches

variable {ε ε' α β γ δ : Type} {errors : ε → ε' → Prop} {values : α → β → Prop}
  {results : γ → δ → Prop} {x : Except ε α} {y : Except ε' β}

theorem bind {f : α → Except ε γ} {g : β → Except ε' δ} (first : Matches errors values x y)
    (next : ∀ a b, values a b → Matches errors results (f a) (g b)) :
    Matches errors results (x >>= f) (y >>= g) := by
  cases first with
  | ok related => exact next _ _ related
  | error related => exact .error related

theorem map {f : α → γ} {g : β → δ} (first : Matches errors values x y)
    (next : ∀ a b, values a b → results (f a) (g b)) :
    Matches errors results (f <$> x) (g <$> y) := by
  cases first with
  | ok related => exact .ok (next _ _ related)
  | error related => exact .error related

theorem mapError {ζ ζ' : Type} {errors' : ζ → ζ' → Prop} {f : ε → ζ} {g : ε' → ζ'}
    (first : Matches errors values x y) (next : ∀ e e', errors e e' → errors' (f e) (g e')) :
    Matches errors' values (x.mapError f) (y.mapError g) := by
  cases first with
  | ok related => exact .ok related
  | error related => exact .error (next _ _ related)

theorem weaken {errors' : ε → ε' → Prop} (first : Matches errors values x y)
    (next : ∀ e e', errors e e' → errors' e e') : Matches errors' values x y := by
  cases first with
  | ok related => exact .ok related
  | error related => exact .error (next _ _ related)

theorem of_eq {x y : Except ε α} (same : x = y) : Matches Eq Eq x y := by
  subst same
  cases x with
  | ok a => exact .ok rfl
  | error e => exact .error rfl

/-- Computations that begin with the same one. -/
theorem bind_self {x : Except ε α} {f : α → Except ε γ} {g : α → Except ε δ}
    (next : ∀ a, Matches Eq results (f a) (g a)) : Matches Eq results (x >>= f) (x >>= g) := by
  refine (of_eq (rfl : x = x)).bind ?_
  rintro a _ rfl
  exact next a

/-- Computations that match up to equality are equal. -/
theorem eq {errors : ε → ε → Prop} {x y : Except ε α} (first : Matches errors Eq x y)
    (same : ∀ e e', errors e e' → e = e') : x = y := by
  cases first with
  | ok related => rw [related]
  | error related => rw [same _ _ related]

end Matches

/-! ### What corresponds -/

/-- How two assemblies of the same tokens are related: the positions of the tokens, the values
that are built, and the names that both builders know. -/
structure Correspondence (α β : Type) where
  place : Nat → Nat → Prop
  known : String → Prop
  value : α → β → Prop

/-- No parenthesis follows, so a name before the tokens is not called. -/
def Uncalled (rest : List Lexeme) : Prop :=
  ∀ next ∈ rest.head?, next.token ≠ .openParen

namespace Correspondence

variable {α β : Type} (c : Correspondence α β)

/-- Each operation of the builders keeps the correspondence, and they have the same faults. -/
structure Builders (b : Builder α) (b' : Builder β) : Prop where
  number {value : Float} {p p' : Nat} :
    c.place p p' → c.value (b.number value p) (b'.number value p')
  reference {name : String} {p p' : Nat} :
    c.known name → c.place p p' → Matches Eq c.value (b.reference name p) (b'.reference name p')
  callable (name : String) : b.callable name = b'.callable name
  call {name : String} {argument : Option α} {argument' : Option β} {p p' : Nat} :
    Option.Rel c.value argument argument' → c.place p p' →
      Matches Eq c.value (b.call name argument p) (b'.call name argument' p')
  negation {operand : α} {operand' : β} {p p' : Nat} :
    c.value operand operand' → c.place p p' →
      Matches Eq c.value (b.negation operand p) (b'.negation operand' p')
  operation {op : Operator} {left right : α} {left' right' : β} {p p' : Nat} :
    c.value left left' → c.value right right' → c.place p p' →
      Matches Eq c.value (b.operation op left right p) (b'.operation op left' right' p')
  assignment {name : String} {right : α} {right' : β} {p p' : Nat} :
    c.value right right' → c.place p p' →
      c.value (b.assignment name right p) (b'.assignment name right' p')

/-- The same tokens at corresponding positions. The names that are read are known. -/
inductive Tokens : List Lexeme → List Lexeme → Prop where
  | nil : Tokens [] []
  | cons {token : Token} {p p' : Nat} {rest rest' : List Lexeme} :
      c.place p p' → (∀ name, token = .identifier name → Uncalled rest → c.known name) →
      Tokens rest rest' → Tokens (⟨token, p⟩ :: rest) (⟨token, p'⟩ :: rest')

/-- The same cause at corresponding positions. -/
structure Errors (e e' : ParseError) : Prop where
  cause : e.cause = e'.cause
  position : c.place e.position e'.position

/-- Errors that correspond; or there is none of the tokens to blame, because they ran out without
an end of input. -/
inductive Failures (tokens : List Lexeme) (e e' : ParseError) : Prop where
  | located : c.Errors e e' → Failures tokens e e'
  | ranOut : (∀ lexeme ∈ tokens, lexeme.token ≠ .endOfInput) → e = ⟨.unexpectedEnd, 0⟩ →
      e' = ⟨.unexpectedEnd, 0⟩ → Failures tokens e e'

/-- The same operation waits for its last operand. -/
inductive Pending : Assembly.Pending α → Assembly.Pending β → Prop where
  | negation {p p' : Nat} : c.place p p' → Pending (.negation p) (.negation p')
  | operation {op : Operator} {left : α} {left' : β} {p p' : Nat} :
      c.value left left' → c.place p p' → Pending (.operation op left p) (.operation op left' p')

/-- Parentheses that belong to the same thing. -/
inductive Brackets : Assembly.Bracket → Assembly.Bracket → Prop where
  | group : Brackets .group .group
  | call {name : String} {p p' : Nat} : c.place p p' → Brackets (.call name p) (.call name p')

/-- Parentheses around which the same operations wait. -/
structure Enclosures (e : Assembly.Enclosure α) (e' : Assembly.Enclosure β) : Prop where
  bracket : c.Brackets e.bracket e'.bracket
  opened : c.place e.opened e'.opened
  outside : List.Forall₂ c.Pending e.outside e'.outside

/-- The same is read before the tokens `rest`. -/
inductive Focus (rest : List Lexeme) : Assembly.Focus α → Assembly.Focus β → Prop where
  | operand : Focus rest .operand .operand
  | argument {name : String} {p p' opened opened' : Nat} :
      c.place p p' → c.place opened opened' →
      Focus rest (.argument name p opened) (.argument name p' opened')
  | name {name : String} {p p' : Nat} :
      (Uncalled rest → c.known name) → c.place p p' → Focus rest (.name name p) (.name name p')
  | value {value : α} {value' : β} :
      c.value value value' → Focus rest (.value value) (.value value')

/-- States that have read the same before the tokens `rest`. -/
structure States (rest : List Lexeme) (s : Assembly.State α) (s' : Assembly.State β) : Prop where
  enclosures : List.Forall₂ c.Enclosures s.enclosures s'.enclosures
  pending : List.Forall₂ c.Pending s.pending s'.pending
  focus : c.Focus rest s.focus s'.focus

/-- The same is done with a token before the tokens `rest`. -/
inductive Progress (rest : List Lexeme) :
    Assembly.Progress α → Assembly.Progress β → Prop where
  | taken {s : Assembly.State α} {s' : Assembly.State β} :
      c.States rest s s' → Progress rest (.taken s) (.taken s')
  | finished {value : α} {value' : β} :
      c.value value value' → Progress rest (.finished value) (.finished value')

section Lemmas

open Assembly

variable {c} {b : Builder α} {b' : Builder β} {value : α} {value' : β} {token : Token}
  {p p' : Nat} {rest : List Lexeme}
  {enclosures : List (Assembly.Enclosure α)} {enclosures' : List (Assembly.Enclosure β)}
  {pending : List (Assembly.Pending α)} {pending' : List (Assembly.Pending β)}
  {s : Assembly.State α} {s' : Assembly.State β}

theorem matches_locate {γ δ : Type} {values : γ → δ → Prop} {x : Except Fault γ}
    {y : Except Fault δ}
    (place : c.place p p') (same : Matches Eq values x y) :
    Matches c.Errors values (Fault.locate p x) (Fault.locate p' y) :=
  same.mapError fun _ _ faults => ⟨congrArg ParseError.Cause.fault faults, place⟩

theorem errors_unexpected (place : c.place p p') :
    c.Errors (.unexpected ⟨token, p⟩) (.unexpected ⟨token, p'⟩) := by
  cases token <;> exact ⟨rfl, place⟩

theorem Failures.cons {tokens : List Lexeme} {lexeme : Lexeme} {e e' : ParseError}
    (plain : lexeme.token ≠ .endOfInput) (failures : c.Failures tokens e e') :
    c.Failures (lexeme :: tokens) e e' := by
  cases failures with
  | located errors => exact .located errors
  | ranOut endless first second =>
    exact .ranOut (List.forall_mem_cons.mpr ⟨plain, endless⟩) first second

/-- Where the tokens have an end, there is always a token to blame. -/
theorem Failures.errors {tokens : List Lexeme} {e e' : ParseError}
    (failures : c.Failures tokens e e')
    (ends : c.place 0 0 ∨ ∃ lexeme ∈ tokens, lexeme.token = .endOfInput) : c.Errors e e' := by
  cases failures with
  | located errors => exact errors
  | ranOut endless first second =>
    subst first second
    refine ⟨rfl, ends.resolve_right ?_⟩
    rintro ⟨lexeme, mem, isEnd⟩
    exact endless lexeme mem isEnd

theorem Pending.level {p : Assembly.Pending α} {p' : Assembly.Pending β} (same : c.Pending p p') :
    p.level = p'.level := by
  cases same <;> rfl

section Operations

variable (builders : c.Builders b b')

include builders

theorem matches_complete {p : Assembly.Pending α} {p' : Assembly.Pending β} (same : c.Pending p p')
    (values : c.value value value') :
    Matches c.Errors c.value (p.complete b value) (p'.complete b' value') := by
  cases same with
  | negation place => exact matches_locate place (builders.negation values place)
  | operation left place => exact matches_locate place (builders.operation left values place)

theorem matches_unwind (level : Level) (waiting : List.Forall₂ c.Pending pending pending')
    (values : c.value value value') :
    Matches c.Errors (fun r r' => List.Forall₂ c.Pending r.1 r'.1 ∧ c.value r.2 r'.2)
      (unwind b level pending value) (unwind b' level pending' value') := by
  induction waiting generalizing value value' with
  | nil => exact .ok ⟨.nil, values⟩
  | cons same waiting ih =>
    simp only [unwind, ← same.level]
    split
    · refine (matches_complete builders same values).bind ?_
      intro completed completed' values
      exact ih values
    · exact .ok ⟨.cons same waiting, values⟩

theorem matches_settle (waiting : List.Forall₂ c.Pending pending pending')
    (values : c.value value value') :
    Matches c.Errors c.value (settle b pending value) (settle b' pending' value') := by
  induction waiting generalizing value value' with
  | nil => exact .ok values
  | cons same _ ih =>
    refine (matches_complete builders same values).bind ?_
    intro completed completed' values
    exact ih values

theorem matches_close {bracket bracket' : Assembly.Bracket} (same : c.Brackets bracket bracket')
    (values : c.value value value') :
    Matches c.Errors c.value (bracket.close b value) (bracket'.close b' value') := by
  cases same with
  | group => exact .ok values
  | call place => exact matches_locate place (builders.call (.some values) place)

/-! ### Steps -/

theorem matches_beginOperand (around : List.Forall₂ c.Enclosures enclosures enclosures')
    (waiting : List.Forall₂ c.Pending pending pending') (place : c.place p p')
    (known : ∀ name, token = .identifier name → Uncalled rest → c.known name) :
    Matches c.Errors (c.States rest) (beginOperand b .sum enclosures pending ⟨token, p⟩)
      (beginOperand b' .sum enclosures' pending' ⟨token, p'⟩) := by
  cases token with
  | number value => exact .ok ⟨around, waiting, .value (builders.number place)⟩
  | identifier name => exact .ok ⟨around, waiting, .name (known name rfl) place⟩
  | openParen => exact .ok ⟨.cons ⟨.group, place, waiting⟩ around, .nil, .operand⟩
  | minus =>
    rw [beginOperand_minus, beginOperand_minus]
    exact .ok ⟨around, .cons (.negation place) waiting, .operand⟩
  | _ => exact .error (errors_unexpected place)

theorem matches_afterValue (around : List.Forall₂ c.Enclosures enclosures enclosures')
    (waiting : List.Forall₂ c.Pending pending pending') (values : c.value value value')
    (place : c.place p p')
    (known : ∀ name, token = .identifier name → Uncalled rest → c.known name) :
    Matches c.Errors (c.Progress rest) (afterValue b .sum enclosures pending value ⟨token, p⟩)
      (afterValue b' .sum enclosures' pending' value' ⟨token, p'⟩) := by
  cases sign : token.operator? with
  | some op =>
    rw [afterValue_operator sign, afterValue_operator sign]
    refine (matches_unwind builders _ waiting values).map ?_
    rintro ⟨left, operand⟩ ⟨left', operand'⟩ ⟨waiting, values⟩
    exact .taken ⟨around, .cons (.operation values place) waiting, .operand⟩
  | none =>
    by_cases begins : token.startsOperand
    · rw [afterValue_operand begins, afterValue_operand begins]
      refine (matches_unwind builders _ waiting values).bind ?_
      rintro ⟨left, operand⟩ ⟨left', operand'⟩ ⟨waiting, values⟩
      have product : c.Pending (.operation .impliedMul operand p)
          (.operation .impliedMul operand' p') := .operation values place
      refine (matches_beginOperand builders around (.cons product waiting) place known).map ?_
      intro begun begun' states
      exact .taken states
    · simp only [afterValue, sign, if_neg begins]
      refine (matches_settle builders waiting values).bind ?_
      intro settled settled' values
      cases around with
      | nil => exact .ok (.finished values)
      | cons same around =>
        cases token with
        | closeParen =>
          refine (matches_close builders same.bracket values).bind ?_
          intro closed closed' values
          exact .ok (.taken ⟨around, same.outside, .value values⟩)
        | assign => exact .error ⟨rfl, place⟩
        | _ => exact .error ⟨rfl, same.opened⟩

/-- A token leads from corresponding states to corresponding ones, or is refused in both. -/
theorem matches_step (states : c.States (⟨token, p⟩ :: rest) s s') (place : c.place p p')
    (known : ∀ name, token = .identifier name → Uncalled rest → c.known name) :
    Matches c.Errors (c.Progress rest) (step b .sum s ⟨token, p⟩)
      (step b' .sum s' ⟨token, p'⟩) := by
  obtain ⟨enclosures, pending, focus⟩ := s
  obtain ⟨enclosures', pending', focus'⟩ := s'
  obtain ⟨around, waiting, same⟩ := states
  cases same with
  | operand =>
    refine (matches_beginOperand builders around waiting place known).map ?_
    intro begun begun' states
    exact .taken states
  | @argument called q q' opened opened' calledAt openedAt =>
    cases token with
    | closeParen =>
      refine (matches_locate calledAt (builders.call .none calledAt)).bind ?_
      intro made made' values
      exact .ok (.taken ⟨around, waiting, .value values⟩)
    | _ =>
      have enclosed : c.Enclosures ⟨.call called q, opened, pending⟩
          ⟨.call called q', opened', pending'⟩ := ⟨.call calledAt, openedAt, waiting⟩
      refine (matches_beginOperand builders (.cons enclosed around) .nil place known).map ?_
      intro begun begun' states
      exact .taken states
  | @name read q q' knows readAt =>
    cases token with
    | openParen =>
      have callable := Matches.of_eq (builders.callable read)
      refine (matches_locate readAt callable).bind ?_
      intro _ _ _
      exact .ok (.taken ⟨around, waiting, .argument readAt place⟩)
    | assign => exact .error ⟨rfl, place⟩
    | _ =>
      -- The token is no parenthesis, so the name is read.
      have knows := knows (by rintro _ ⟨⟩ ⟨⟩)
      refine (matches_locate readAt (builders.reference knows readAt)).bind ?_
      intro read read' values
      exact matches_afterValue builders around waiting values place known
  | value values => exact matches_afterValue builders around waiting values place known

/-! ### Runs -/

theorem matches_settleAll (around : List.Forall₂ c.Enclosures enclosures enclosures')
    (waiting : List.Forall₂ c.Pending pending pending') (values : c.value value value') :
    Matches c.Errors c.value (settleAll b enclosures pending value)
      (settleAll b' enclosures' pending' value') := by
  refine (matches_settle builders waiting values).bind ?_
  intro settled settled' values
  cases around with
  | nil => exact .ok values
  | cons same _ => exact .error ⟨rfl, same.opened⟩

theorem matches_finish (states : c.States [] s s') :
    Matches (c.Failures []) c.value (finish b s) (finish b' s') := by
  obtain ⟨enclosures, pending, focus⟩ := s
  obtain ⟨enclosures', pending', focus'⟩ := s'
  obtain ⟨around, waiting, same⟩ := states
  cases same with
  | operand | argument => exact .error (.ranOut (by simp) rfl rfl)
  | name knows readAt =>
    refine Matches.weaken ?_ fun _ _ => .located
    refine (matches_locate readAt (builders.reference (knows nofun) readAt)).bind ?_
    intro read read' values
    exact matches_settleAll builders around waiting values
  | value values =>
    exact (matches_settleAll builders around waiting values).weaken fun _ _ => .located

/-- The same tokens lead to corresponding results. -/
theorem matches_run {tokens tokens' : List Lexeme} (same : c.Tokens tokens tokens')
    (states : c.States tokens s s') :
    Matches (c.Failures tokens) (fun r r' => c.value r.1 r'.1 ∧ c.Tokens r.2 r'.2)
      (run b .sum s tokens) (run b' .sum s' tokens') := by
  induction same generalizing s s' with
  | nil =>
    refine (matches_finish builders states).bind ?_
    intro result result' values
    exact .ok ⟨values, .nil⟩
  | @cons token p p' rest rest' place known later ih =>
    have stepped := matches_step builders states place known
    rw [run, run]
    generalize result_eq : step b .sum s ⟨token, p⟩ = result at stepped ⊢
    generalize step b' .sum s' ⟨token, p'⟩ = result' at stepped ⊢
    cases stepped with
    | error errors => exact .error (.located errors)
    | ok progress =>
      cases progress with
      | taken states =>
        refine (ih states).weaken fun _ _ => .cons ?_
        rintro rfl
        exact step_endOfInput_ne_taken result_eq
      | finished values => exact .ok ⟨values, .cons place known later⟩

/-! ### Statements -/

variable {tokens tokens' : List Lexeme}

theorem matches_assembleAll (same : c.Tokens tokens tokens') :
    Matches (c.Failures tokens) c.value (assembleAll b tokens) (assembleAll b' tokens') := by
  have start : c.States tokens State.start State.start := ⟨.nil, .nil, .operand⟩
  refine (matches_run builders same start).bind ?_
  rintro ⟨result, rest⟩ ⟨result', rest'⟩ ⟨values, left⟩
  cases left with
  | nil => exact .ok values
  | @cons token _ _ _ _ place _ _ =>
    cases token with
    | endOfInput => exact .ok values
    | _ => exact .error (.located ⟨rfl, place⟩)

/-- The target of an assignment is written and not read, so it need not be known. -/
theorem matches_assignment {name : String} {q q' : Nat} (place : c.place p p')
    (same : c.Tokens tokens tokens') :
    Matches (c.Failures (⟨.identifier name, p⟩ :: ⟨.assign, q⟩ :: tokens)) c.value
      (assembleStatement b (⟨.identifier name, p⟩ :: ⟨.assign, q⟩ :: tokens))
      (assembleStatement b' (⟨.identifier name, p'⟩ :: ⟨.assign, q'⟩ :: tokens')) := by
  have right : Matches (c.Failures (⟨.identifier name, p⟩ :: ⟨.assign, q⟩ :: tokens)) c.value
      (assembleAll b tokens) (assembleAll b' tokens') :=
    (matches_assembleAll builders same).weaken
      fun _ _ failures => .cons nofun (.cons nofun failures)
  refine right.bind ?_
  intro right right' values
  exact .ok (builders.assignment values place)

theorem matches_assembleStatement (same : c.Tokens tokens tokens') :
    Matches (c.Failures tokens) c.value (assembleStatement b tokens)
      (assembleStatement b' tokens') := by
  by_cases assigns : ∃ name p q rest, tokens = ⟨.identifier name, p⟩ :: ⟨.assign, q⟩ :: rest
  · obtain ⟨name, p, q, rest, rfl⟩ := assigns
    obtain _ | ⟨place, -, _ | ⟨-, -, same⟩⟩ := same
    exact matches_assignment builders place same
  · have plain : assembleStatement b tokens = assembleAll b tokens := by
      refine assembleStatement_eq_assembleAll ?_
      intro name p q rest tokens_eq
      exact assigns ⟨name, p, q, rest, tokens_eq⟩
    have plain' : assembleStatement b' tokens' = assembleAll b' tokens' := by
      refine assembleStatement_eq_assembleAll ?_
      rintro name p q rest rfl
      obtain _ | ⟨-, -, _ | ⟨-, -, -⟩⟩ := same
      exact assigns ⟨_, _, _, _, rfl⟩
    rw [plain, plain']
    exact matches_assembleAll builders same

end Operations

end Lemmas

/-! ### Trees -/

/-- Trees that differ in their positions only. There is a tree with `marked` positions, and `move`
and `move'` lead from it to the two. -/
def trees (move move' : Nat → Nat) (marked : Nat → Prop) (bindings bindings' : Bindings) :
    Correspondence Tree Tree where
  place p p' := ∃ q, marked q ∧ p = move q ∧ p' = move' q
  known name := bindings.get? name = bindings'.get? name
  value tree tree' := ∃ source : Tree, (∀ depth, ∀ row ∈ source.rows depth, marked row.position) ∧
    tree = source.relocate move ∧ tree' = source.relocate move'

section Trees

variable {move move' : Nat → Nat} {marked : Nat → Prop} {bindings bindings' : Bindings}
  {tokens : List Lexeme}

/-- The argument of a call is one tree, or none. -/
theorem exists_sources {argument argument' : Option Tree}
    (same : Option.Rel (trees move move' marked bindings bindings').value argument argument') :
    ∃ sources : List Tree,
      (∀ depth, ∀ row ∈ Tree.rowsOfList depth sources, marked row.position) ∧
      argument.toList = Tree.relocateList move sources ∧
      argument'.toList = Tree.relocateList move' sources ∧
      (argument.map Tree.value).toList = sources.map Tree.value ∧
      (argument'.map Tree.value).toList = sources.map Tree.value := by
  cases same with
  | none => exact ⟨[], by simp [Tree.rowsOfList], rfl, rfl, rfl, rfl⟩
  | some same =>
    obtain ⟨source, marks, rfl, rfl⟩ := same
    refine ⟨[source], by simpa [Tree.rowsOfList] using marks, rfl, rfl, ?_, ?_⟩ <;> simp

/-- An evaluation looks at the values of operands and not at their positions. -/
theorem builders_trees :
    (trees move move' marked bindings bindings').Builders (Tree.builder bindings)
      (Tree.builder bindings') where
  number := by
    rintro value _ _ ⟨q, mark, rfl, rfl⟩
    exact ⟨.number value q, by simp [Tree.rows, mark], rfl, rfl⟩
  reference := by
    rintro name _ _ known ⟨q, mark, rfl, rfl⟩
    have known : bindings.read name = bindings'.read name := by
      have same : bindings.get? name = bindings'.get? name := known
      rw [Bindings.read, Bindings.read, same]
    simp only [Tree.builder, known]
    exact .bind_self fun value =>
      .ok ⟨.reference name value q, by simp [Tree.rows, mark], rfl, rfl⟩
  callable _ := rfl
  call := by
    rintro name argument argument' _ _ same ⟨q, mark, rfl, rfl⟩
    obtain ⟨sources, marks, first, second, values, values'⟩ := exists_sources same
    simp only [Tree.builder, first, second, values, values']
    exact .bind_self fun value => .ok ⟨.call name sources value q,
      fun depth => List.forall_mem_cons.mpr ⟨mark, marks _⟩, rfl, rfl⟩
  negation := by
    rintro _ _ _ _ ⟨operand, marks, rfl, rfl⟩ ⟨q, mark, rfl, rfl⟩
    simp only [Tree.builder, Tree.value_relocate]
    exact .bind_self fun value => .ok ⟨.negation operand value q,
      fun depth => List.forall_mem_cons.mpr ⟨mark, marks _⟩, rfl, rfl⟩
  operation := by
    rintro op _ _ _ _ _ _ ⟨left, marksl, rfl, rfl⟩ ⟨right, marksr, rfl, rfl⟩ ⟨q, mark, rfl, rfl⟩
    simp only [Tree.builder, Tree.value_relocate]
    exact .bind_self fun value => .ok ⟨.operation op left right value q,
      fun depth => List.forall_mem_cons.mpr
        ⟨mark, List.forall_mem_append.mpr ⟨marksl _, marksr _⟩⟩, rfl, rfl⟩
  assignment := by
    rintro name _ _ _ _ ⟨right, marks, rfl, rfl⟩ ⟨q, mark, rfl, rfl⟩
    simp only [Tree.builder, Tree.value_relocate]
    exact ⟨.assignment name right right.value q,
      fun depth => List.forall_mem_cons.mpr ⟨mark, marks _⟩, rfl, rfl⟩

variable (move move' marked) (marks : ∀ lexeme ∈ tokens, marked lexeme.position)
  (same : ∀ lexeme ∈ tokens, ∀ name, lexeme.token = .identifier name →
    bindings.get? name = bindings'.get? name)

include marks same

theorem tokens_trees :
    (trees move move' marked bindings bindings').Tokens (tokens.map (Lexeme.relocate move))
      (tokens.map (Lexeme.relocate move')) := by
  induction tokens with
  | nil => exact .nil
  | cons lexeme tokens ih =>
    obtain ⟨mark, marks⟩ := List.forall_mem_cons.mp marks
    obtain ⟨first, same⟩ := List.forall_mem_cons.mp same
    exact .cons ⟨_, mark, rfl, rfl⟩ (fun name isName _ => first name isName) (ih marks same)

/-- Tokens that are moved move the tree, and the error, if the bindings agree on the names among
them. -/
theorem failures_evaluateTokens :
    Matches ((trees move move' marked bindings bindings').Failures
        (tokens.map (Lexeme.relocate move)))
      (trees move move' marked bindings bindings').value
      (evaluateTokens (tokens.map (Lexeme.relocate move)) bindings)
      (evaluateTokens (tokens.map (Lexeme.relocate move')) bindings') :=
  matches_assembleStatement builders_trees (tokens_trees move move' marked marks same)

/-- The first tokens are moved, and the second ones are not. An error is where one of the tokens is,
or at 0 if they have no end. -/
theorem matches_evaluateTokens
    (ends : (0 = move 0 ∧ marked 0) ∨ ∃ lexeme ∈ tokens, lexeme.token = .endOfInput) :
    Matches (fun e e' => e.cause = e'.cause ∧ e.position = move e'.position ∧ marked e'.position)
      (fun tree tree' => tree = tree'.relocate move)
      (evaluateTokens (tokens.map (Lexeme.relocate move)) bindings)
      (evaluateTokens tokens bindings') := by
  have sides := failures_evaluateTokens move id marked marks same
  have unmoved : tokens.map (Lexeme.relocate id) = tokens := List.map_id _
  rw [unmoved] at sides
  generalize evaluateTokens (tokens.map (Lexeme.relocate move)) bindings = result at sides ⊢
  generalize evaluateTokens tokens bindings' = result' at sides ⊢
  cases sides with
  | ok related =>
    obtain ⟨source, -, rfl, rfl⟩ := related
    exact .ok (congrArg (Tree.relocate move) (Tree.relocate_id source).symm)
  | error failures =>
    have ends : (trees move id marked bindings bindings').place 0 0 ∨
        ∃ lexeme ∈ tokens.map (Lexeme.relocate move), lexeme.token = .endOfInput := by
      refine ends.imp (fun ⟨zero, mark⟩ => ⟨0, mark, zero, rfl⟩) ?_
      rintro ⟨lexeme, mem, isEnd⟩
      exact ⟨lexeme.relocate move, List.mem_map_of_mem mem, isEnd⟩
    obtain ⟨cause, q, mark, position, rfl⟩ := failures.errors ends
    exact .error ⟨cause, position, mark⟩

/-- Where nothing is moved, the trees are equal, and so are the errors. -/
theorem matches_evaluateTokens_id
    (ends : marked 0 ∨ ∃ lexeme ∈ tokens, lexeme.token = .endOfInput) :
    Matches (fun e e' => e = e' ∧ marked e'.position) Eq (evaluateTokens tokens bindings)
      (evaluateTokens tokens bindings') := by
  have sides := matches_evaluateTokens id marked marks same (ends.imp_left (⟨rfl, ·⟩))
  have unmoved : tokens.map (Lexeme.relocate id) = tokens := List.map_id _
  rw [unmoved] at sides
  generalize evaluateTokens tokens bindings = result at sides ⊢
  generalize evaluateTokens tokens bindings' = result' at sides ⊢
  cases sides with
  | ok related => exact .ok (related.trans (Tree.relocate_id _))
  | @error e e' errors =>
    refine .error ⟨?_, errors.2.2⟩
    obtain ⟨cause, position⟩ := e
    obtain ⟨rfl, rfl, -⟩ := errors
    rfl

end Trees

end Correspondence

end Calculator
