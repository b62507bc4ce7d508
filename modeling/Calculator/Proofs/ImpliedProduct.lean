import Calculator.Proofs.Statement

/-!
Implied products are stars that are left out.

`writeProducts` puts a star between two adjacent operands, at the position of the
second one. This changes the operators in the tree of a statement (`Tree.written`) and
nothing else: not the values, not the positions, not what is assigned, and not the
error that ill-formed tokens give.

The assemblies with and without the stars run side by side. Their states correspond by
`State.written`, and `Focus.Follows` ties the focus of a state to the last token, so
that a star comes before a token exactly if it begins an operand after a complete one.
`step_written` is the step of the simulation and `runsCorrespond` the whole run. What a
builder has to satisfy for this is `WritesProducts`.
-/

namespace Calculator

/-! ### Stars for implied products -/

/-- Puts the stars into tokens that stand after the token `before`. -/
def writtenAfter (before : Token) : List Lexeme → List Lexeme
  | [] => []
  | lexeme :: rest =>
    if before.impliesProduct lexeme.token then
      ⟨.star, lexeme.position⟩ :: lexeme :: writtenAfter lexeme.token rest
    else lexeme :: writtenAfter lexeme.token rest

/-- Puts a star between the factors of every implied product. -/
def writeProducts : List Lexeme → List Lexeme
  | [] => []
  | lexeme :: rest => lexeme :: writtenAfter lexeme.token rest

/-- The operator of the same product written out. -/
def Operator.written : Operator → Operator
  | .impliedMul => .mul
  | op => op

namespace Tree

mutual

/-- The tree in which every product is a written one. -/
def written : Tree → Tree
  | .number value p => .number value p
  | .reference name value p => .reference name value p
  | .assignment name right value p => .assignment name right.written value p
  | .negation operand value p => .negation operand.written value p
  | .operation op left right value p => .operation op.written left.written right.written value p
  | .call name arguments value p => .call name (writtenOfList arguments) value p

/-- The trees in which every product is a written one. -/
def writtenOfList : List Tree → List Tree
  | [] => []
  | tree :: trees => tree.written :: writtenOfList trees

end

@[simp] theorem value_written (tree : Tree) : tree.written.value = tree.value := by
  cases tree <;> simp only [written, value]

end Tree

namespace Operator

@[simp] theorem level_written (op : Operator) : op.written.level = op.level := by
  cases op <;> rfl

@[simp] theorem apply_written (op : Operator) (left right : Float) :
    op.written.apply left right = op.apply left right := by
  cases op <;> rfl

end Operator

namespace Token

variable {before after token : Token} {op : Operator}

theorem written_of_operator? (h : token.operator? = some op) : op.written = op := by
  cases token <;> cases h <;> rfl

theorem not_endsOperand_of_operator? (h : token.operator? = some op) : ¬ token.endsOperand := by
  cases token <;> cases h <;> decide

theorem not_impliesProduct (h : ¬ before.endsOperand) : ¬ before.impliesProduct after := by
  cases before with
  | number | identifier | closeParen => exact absurd rfl h
  | _ => exact Bool.false_ne_true

end Token

theorem writtenAfter_eq_writeProducts {before : Token} (h : ¬ before.endsOperand)
    (tokens : List Lexeme) : writtenAfter before tokens = writeProducts tokens := by
  cases tokens with
  | nil => rfl
  | cons lexeme rest => rw [writtenAfter, if_neg (Token.not_impliesProduct h), writeProducts]

/-- A name before a parenthesis is called, so no star comes between them. -/
example : writeProducts [⟨.identifier "f", 0⟩, ⟨.openParen, 1⟩, ⟨.number 2.0, 2⟩,
      ⟨.closeParen, 3⟩, ⟨.identifier "x", 5⟩] =
    [⟨.identifier "f", 0⟩, ⟨.openParen, 1⟩, ⟨.number 2.0, 2⟩, ⟨.closeParen, 3⟩,
      ⟨.star, 5⟩, ⟨.identifier "x", 5⟩] := rfl

/-! ### Builders that do not tell products apart -/

/-- Writing products out commutes with everything that a builder does. -/
structure WritesProducts {α : Type} (b : Builder α) (write : α → α) : Prop where
  number (value : Float) (position : Nat) :
    write (b.number value position) = b.number value position
  reference (name : String) (position : Nat) :
    write <$> b.reference name position = b.reference name position
  call (name : String) (argument : Option α) (position : Nat) :
    b.call name (argument.map write) position = write <$> b.call name argument position
  negation (operand : α) (position : Nat) :
    b.negation (write operand) position = write <$> b.negation operand position
  operation (op : Operator) (left right : α) (position : Nat) :
    b.operation op.written (write left) (write right) position =
      write <$> b.operation op left right position
  assignment (name : String) (right : α) (position : Nat) :
    b.assignment name (write right) position = write (b.assignment name right position)

/-- An evaluation looks at the values of operands only, and both products multiply. -/
theorem Tree.writesProducts_builder (bindings : Bindings) :
    WritesProducts (Tree.builder bindings) Tree.written where
  number _ _ := rfl
  reference name position := by
    simp only [Tree.builder]
    cases bindings.read name <;> rfl
  call name argument position := by
    have values : ((argument.map Tree.written).map Tree.value).toList =
        (argument.map Tree.value).toList := by
      cases argument <;> simp
    simp only [Tree.builder, values]
    cases Calculator.call name (argument.map Tree.value).toList with
    | error fault => rfl
    | ok value => cases argument <;> rfl
  negation operand position := by
    simp only [Tree.builder, Tree.value_written]
    cases negated operand.value <;> rfl
  operation op left right position := by
    simp only [Tree.builder, Tree.value_written, Operator.apply_written]
    cases op.apply left.value right.value <;> rfl
  assignment name right position := by
    simp only [Tree.builder, Tree.value_written, Tree.written]

theorem Fault.locate_map {α β : Type} (f : α → β) (position : Nat) (result : Except Fault α) :
    Fault.locate position (f <$> result) = f <$> Fault.locate position result := by
  cases result <;> rfl

namespace Assembly

variable {α : Type} {b : Builder α} {write : α → α} {enclosures : List (Enclosure α)}
  {pending : List (Pending α)} {value : α} {lexeme : Lexeme} {rest : List Lexeme}
  {before : Token}

/-! ### Corresponding states -/

def Pending.written (write : α → α) : Pending α → Pending α
  | .negation position => .negation position
  | .operation op left position => .operation op.written (write left) position

def Enclosure.written (write : α → α) (e : Enclosure α) : Enclosure α :=
  ⟨e.bracket, e.opened, e.outside.map (Pending.written write)⟩

def Focus.written (write : α → α) : Focus α → Focus α
  | .operand => .operand
  | .argument called position opened => .argument called position opened
  | .name read position => .name read position
  | .value value => .value (write value)

/-- The state after the same tokens with the stars put in. -/
def State.written (write : α → α) (s : State α) : State α :=
  ⟨s.enclosures.map (Enclosure.written write), s.pending.map (Pending.written write),
    s.focus.written write⟩

def Progress.written (write : α → α) : Progress α → Progress α
  | .taken s => .taken (s.written write)
  | .finished value => .finished (write value)

@[simp] theorem Pending.level_written (p : Pending α) : (p.written write).level = p.level := by
  cases p with
  | negation => rfl
  | operation op => exact op.level_written

/-- What a run comes to with the stars put in. -/
def writtenResult (write : α → α) (r : α × List Lexeme) : α × List Lexeme :=
  (write r.1, writeProducts r.2)

/-- What the focus of a state says about the last token `before`. -/
def Focus.Follows (before : Token) : Focus α → Prop
  | .operand | .argument _ _ _ => ¬ before.endsOperand
  | .name _ _ => ∃ called, before = .identifier called
  | .value _ => before.endsOperand ∧ ∀ called, before ≠ .identifier called

/-- From corresponding states after the token `before`, the runs over the tokens with
and without the stars correspond. -/
def RunsCorrespond (b : Builder α) (write : α → α) (before : Token) (tokens : List Lexeme) :
    Prop :=
  ∀ s : State α, s.focus.Follows before →
    run b .sum (s.written write) (writtenAfter before tokens) =
      writtenResult write <$> run b .sum s tokens

theorem Focus.follows_number (number : Float) : (Focus.value value).Follows (.number number) :=
  ⟨rfl, fun _ => Token.noConfusion⟩

theorem Focus.follows_closeParen : (Focus.value value).Follows .closeParen :=
  ⟨rfl, fun _ => Token.noConfusion⟩

/-- After a complete operand that is no name, whatever begins an operand implies a
product. -/
theorem Focus.Follows.impliesProduct {after : Token}
    (follows : (Focus.value value).Follows before) (begins : after.startsOperand) :
    before.impliesProduct after := by
  unfold Token.impliesProduct
  split
  · exact absurd rfl (follows.2 _)
  · exact Bool.and_eq_true_iff.mpr ⟨follows.1, begins⟩

/-! ### The focus after a step -/

theorem beginOperand_follows {s : State α}
    (h : beginOperand b .sum enclosures pending lexeme = .ok s) :
    s.focus.Follows lexeme.token := by
  obtain ⟨token, position⟩ := lexeme
  cases token with
  | number value =>
    cases h
    exact Focus.follows_number value
  | identifier called =>
    cases h
    exact ⟨called, rfl⟩
  | openParen =>
    cases h
    exact Bool.false_ne_true
  | minus =>
    rw [beginOperand_minus] at h
    cases h
    exact Bool.false_ne_true
  | _ => cases h

theorem afterValue_follows {s : State α}
    (h : afterValue b .sum enclosures pending value lexeme = .ok (.taken s)) :
    s.focus.Follows lexeme.token := by
  cases sign : lexeme.token.operator? with
  | some op =>
    rw [afterValue_operator sign] at h
    obtain ⟨r, -, ⟨⟩⟩ := map_eq_ok.mp h
    exact Token.not_endsOperand_of_operator? sign
  | none =>
    by_cases begins : lexeme.token.startsOperand
    · rw [afterValue_operand begins] at h
      obtain ⟨r, -, begun⟩ := bind_eq_ok.mp h
      obtain ⟨s, begun, ⟨⟩⟩ := map_eq_ok.mp begun
      exact beginOperand_follows begun
    · simp only [afterValue, sign, if_neg begins] at h
      obtain ⟨settled, -, h⟩ := bind_eq_ok.mp h
      obtain ⟨token, position⟩ := lexeme
      cases enclosures with
      | nil => cases h
      | cons e enclosures =>
        cases token with
        | closeParen =>
          obtain ⟨closed, -, ⟨⟩⟩ := bind_eq_ok.mp h
          exact Focus.follows_closeParen
        | _ => cases h

/-- A step leaves a focus that follows the token that it takes. -/
theorem step_follows {s s' : State α} (h : step b .sum s lexeme = .ok (.taken s')) :
    s'.focus.Follows lexeme.token := by
  obtain ⟨enclosures, pending, focus⟩ := s
  cases focus with
  | operand =>
    obtain ⟨s, begun, ⟨⟩⟩ := map_eq_ok.mp h
    exact beginOperand_follows begun
  | argument called position opened =>
    obtain ⟨token, p⟩ := lexeme
    cases token with
    | closeParen =>
      obtain ⟨value, -, ⟨⟩⟩ := bind_eq_ok.mp h
      exact Focus.follows_closeParen
    | _ =>
      obtain ⟨s, begun, ⟨⟩⟩ := map_eq_ok.mp h
      exact beginOperand_follows begun
  | name read position =>
    obtain ⟨token, p⟩ := lexeme
    cases token with
    | openParen =>
      obtain ⟨⟨⟩, -, ⟨⟩⟩ := bind_eq_ok.mp h
      exact Bool.false_ne_true
    | assign => cases h
    | _ =>
      obtain ⟨value, -, h⟩ := bind_eq_ok.mp h
      exact afterValue_follows h
  | value value => exact afterValue_follows h

/-! ### Completing operations -/

/-- What is built from a single name stays as it is. -/
theorem locate_bind_of_map_eq {β : Type} {built : Except Fault α}
    (fixed : write <$> built = built) (position : Nat) (next : α → Except ParseError β) :
    (Fault.locate position built >>= next) =
      (Fault.locate position built >>= fun value => next (write value)) := by
  calc (Fault.locate position built >>= next)
    _ = (Fault.locate position (write <$> built) >>= next) := by rw [fixed]
    _ = _ := by rw [Fault.locate_map, bind_map_left]

section Simulation

variable (writes : WritesProducts b write)

include writes

theorem complete_written (p : Pending α) (operand : α) :
    (p.written write).complete b (write operand) = write <$> p.complete b operand := by
  cases p with
  | negation position =>
    simp only [Pending.written, Pending.complete, writes.negation, Fault.locate_map]
  | operation op left position =>
    simp only [Pending.written, Pending.complete, writes.operation, Fault.locate_map]

theorem unwind_written (level : Level) (pending : List (Pending α)) (value : α) :
    unwind b level (pending.map (Pending.written write)) (write value) =
      (fun r => (r.1.map (Pending.written write), write r.2)) <$>
        unwind b level pending value := by
  induction pending generalizing value with
  | nil => rfl
  | cons p pending ih =>
    simp only [List.map_cons, unwind, Pending.level_written]
    split
    · simp only [complete_written writes, bind_map_left, map_bind, ih]
    · rfl

theorem settle_written (pending : List (Pending α)) (value : α) :
    settle b (pending.map (Pending.written write)) (write value) =
      write <$> settle b pending value := by
  induction pending generalizing value with
  | nil => rfl
  | cons p pending ih =>
    simp only [List.map_cons, settle, complete_written writes, bind_map_left, map_bind, ih]

theorem close_written (bracket : Bracket) (value : α) :
    bracket.close b (write value) = write <$> bracket.close b value := by
  cases bracket with
  | group => rfl
  | call called position =>
    have called_eq := writes.call called (some value) position
    simp only [Option.map_some] at called_eq
    simp only [Bracket.close, called_eq, Fault.locate_map]

theorem settleAll_written (enclosures : List (Enclosure α)) (pending : List (Pending α))
    (value : α) :
    settleAll b (enclosures.map (Enclosure.written write)) (pending.map (Pending.written write))
        (write value) =
      write <$> settleAll b enclosures pending value := by
  simp only [settleAll, settle_written writes, bind_map_left, map_bind]
  cases enclosures <;> rfl

theorem finish_written (s : State α) : finish b (s.written write) = write <$> finish b s := by
  obtain ⟨enclosures, pending, focus⟩ := s
  cases focus with
  | operand | argument => rfl
  | name read position =>
    simp only [finish, State.written, Focus.written, map_bind]
    rw [locate_bind_of_map_eq (writes.reference read position)]
    apply bind_congr
    intro value
    exact settleAll_written writes enclosures pending value
  | value value => exact settleAll_written writes enclosures pending value

/-! ### Steps -/

theorem beginOperand_written (enclosures : List (Enclosure α)) (pending : List (Pending α))
    (lexeme : Lexeme) :
    beginOperand b .sum (enclosures.map (Enclosure.written write))
        (pending.map (Pending.written write)) lexeme =
      State.written write <$> beginOperand b .sum enclosures pending lexeme := by
  obtain ⟨token, position⟩ := lexeme
  cases token with
  | number value =>
    simp only [beginOperand, State.written, Focus.written, map_ok, writes.number]
  | minus =>
    simp only [beginOperand_minus, map_ok, State.written, List.map_cons, Pending.written]
    rfl
  | _ => rfl

theorem taken_beginOperand_written (enclosures : List (Enclosure α))
    (pending : List (Pending α)) (lexeme : Lexeme) :
    Progress.taken <$> beginOperand b .sum (enclosures.map (Enclosure.written write))
        (pending.map (Pending.written write)) lexeme =
      Progress.written write <$>
        (Progress.taken <$> beginOperand b .sum enclosures pending lexeme) := by
  simp only [beginOperand_written writes, Functor.map_map, Progress.written]

/-- A token that begins no operand is taken in the same way. -/
theorem afterValue_written (enclosures : List (Enclosure α)) (pending : List (Pending α))
    (value : α) (separate : ¬ lexeme.token.startsOperand) :
    afterValue b .sum (enclosures.map (Enclosure.written write))
        (pending.map (Pending.written write)) (write value) lexeme =
      Progress.written write <$> afterValue b .sum enclosures pending value lexeme := by
  cases sign : lexeme.token.operator? with
  | some op =>
    simp only [afterValue_operator sign, unwind_written writes, Functor.map_map,
      Progress.written, State.written, List.map_cons, Pending.written, Focus.written,
      Token.written_of_operator? sign]
  | none =>
    simp only [afterValue, sign, if_neg separate, settle_written writes, bind_map_left, map_bind]
    apply bind_congr
    intro value
    cases enclosures with
    | nil => rfl
    | cons e enclosures =>
      obtain ⟨token, position⟩ := lexeme
      cases token with
      | closeParen =>
        simp only [List.map_cons, Enclosure.written, close_written writes, bind_map_left, map_bind]
        rfl
      | _ => rfl

/-- Tokens between which there is no star are taken in the same way. -/
theorem step_written {s : State α} (follows : s.focus.Follows before)
    (separate : ¬ before.impliesProduct lexeme.token) :
    step b .sum (s.written write) lexeme = Progress.written write <$> step b .sum s lexeme := by
  obtain ⟨enclosures, pending, focus⟩ := s
  cases focus with
  | operand =>
    exact taken_beginOperand_written writes enclosures pending lexeme
  | argument called position opened =>
    obtain ⟨token, p⟩ := lexeme
    cases token with
    | closeParen =>
      simp only [step, State.written, Focus.written, map_bind]
      rw [locate_bind_of_map_eq (writes.call called none position).symm]
      rfl
    | _ =>
      exact taken_beginOperand_written writes
        (⟨.call called position, opened, pending⟩ :: enclosures) [] _
  | name read position =>
    obtain ⟨called, rfl⟩ := follows
    obtain ⟨token, p⟩ := lexeme
    cases token with
    | number | identifier => exact absurd rfl separate
    | openParen => simp only [step, State.written, Focus.written, map_bind]; rfl
    | assign => rfl
    | _ =>
      simp only [step, State.written, Focus.written, map_bind]
      rw [locate_bind_of_map_eq (writes.reference read position)]
      apply bind_congr
      intro value
      exact afterValue_written writes enclosures pending value Bool.false_ne_true
  | value value =>
    exact afterValue_written writes enclosures pending value
      fun begins => separate (follows.impliesProduct begins)

/-! ### Runs -/

/-- Before a token that has no star in front of it, the runs correspond if they do
after it. -/
theorem run_written_cons {s : State α} (follows : s.focus.Follows before)
    (separate : ¬ before.impliesProduct lexeme.token)
    (next : RunsCorrespond b write lexeme.token rest) :
    run b .sum (s.written write) (lexeme :: writtenAfter lexeme.token rest) =
      writtenResult write <$> run b .sum s (lexeme :: rest) := by
  simp only [run, step_written writes follows separate, bind_map_left, map_bind]
  cases stepped : step b .sum s lexeme with
  | error e => rfl
  | ok progress =>
    cases progress with
    | taken s' => exact next s' (step_follows stepped)
    | finished value => rfl

/-- After a complete operand, a star and an operand do what the operand does alone. -/
theorem run_written_star (enclosures : List (Enclosure α)) (pending : List (Pending α))
    (value : α) (begins : lexeme.token.startsOperand)
    (next : RunsCorrespond b write lexeme.token rest) :
    run b .sum (State.written write ⟨enclosures, pending, .value value⟩)
        (⟨.star, lexeme.position⟩ :: lexeme :: writtenAfter lexeme.token rest) =
      writtenResult write <$>
        run b .sum ⟨enclosures, pending, .value value⟩ (lexeme :: rest) := by
  have sign : Token.star.operator? = some .mul := rfl
  have follows : ¬ Token.star.endsOperand := Bool.false_ne_true
  simp only [State.written, Focus.written]
  rw [run_operator sign, run_operand begins, map_bind, unwind_written writes, bind_map_left]
  apply bind_congr
  intro r
  -- The star stands in the place of the token before, so the operand is not separated again.
  exact run_written_cons writes
    (s := ⟨enclosures, .operation .impliedMul r.2 lexeme.position :: r.1, .operand⟩)
    follows (Token.not_impliesProduct follows) next

/-- The runs over tokens with and without the stars correspond. -/
theorem runsCorrespond (tokens : List Lexeme) (before : Token) :
    RunsCorrespond b write before tokens := by
  induction tokens generalizing before with
  | nil =>
    intro s _
    simp only [writtenAfter, run, finish_written writes, bind_map_left, map_bind]
    rfl
  | cons lexeme rest ih =>
    intro s follows
    have next := ih lexeme.token
    rw [writtenAfter]
    by_cases implied : before.impliesProduct lexeme.token
    · rw [if_pos implied]
      have begins := Token.startsOperand_of_impliesProduct implied
      obtain ⟨enclosures, pending, focus⟩ := s
      cases focus with
      | operand | argument => exact absurd implied (Token.not_impliesProduct follows)
      | name read position =>
        obtain ⟨called, rfl⟩ := follows
        have detached : Detached ([] ++ [⟨.identifier called, position⟩]) (lexeme :: rest) :=
          detached_of_impliesProduct implied
        simp only [State.written, Focus.written]
        rw [run_reference (by rintro _ ⟨⟩; exact ⟨Token.noConfusion, Token.noConfusion⟩),
          run_reference (detached called position rfl), map_bind,
          locate_bind_of_map_eq (writes.reference read position)]
        apply bind_congr
        intro value
        exact run_written_star writes enclosures pending value begins next
      | value value => exact run_written_star writes enclosures pending value begins next
    · rw [if_neg implied]
      exact run_written_cons writes follows implied next

end Simulation

end Assembly

/-! ### Statements -/

section Statements

open Assembly

variable {α : Type} {b : Builder α} {write : α → α}

theorem assembleAll_writeProducts (writes : WritesProducts b write) (tokens : List Lexeme) :
    assembleAll b (writeProducts tokens) = write <$> assembleAll b tokens := by
  have follows : ¬ Token.assign.endsOperand := Bool.false_ne_true
  have runs : run b .sum .start (writeProducts tokens) =
      writtenResult write <$> run b .sum .start tokens := by
    rw [← writtenAfter_eq_writeProducts follows]
    exact runsCorrespond writes tokens .assign .start follows
  simp only [assembleAll, assemble, runs, bind_map_left, map_bind]
  apply bind_congr
  rintro ⟨value, rest⟩
  cases rest with
  | nil => rfl
  | cons lexeme rest =>
    obtain ⟨token, position⟩ := lexeme
    cases token <;> rfl

/-- No star is put in front of an equals sign, and none of them is one. -/
theorem writeProducts_eq_assignment {name : String} {p q : Nat} {tokens rest : List Lexeme}
    (h : writeProducts tokens = ⟨.identifier name, p⟩ :: ⟨.assign, q⟩ :: rest) :
    ∃ rest', tokens = ⟨.identifier name, p⟩ :: ⟨.assign, q⟩ :: rest' := by
  match tokens with
  | [] => cases h
  | [_] => cases h
  | first :: ⟨token, position⟩ :: rest' =>
    simp only [writeProducts, writtenAfter] at h
    split at h
    · cases h
    · cases h
      exact ⟨rest', rfl⟩

theorem assembleStatement_writeProducts (writes : WritesProducts b write)
    (tokens : List Lexeme) :
    assembleStatement b (writeProducts tokens) = write <$> assembleStatement b tokens := by
  by_cases assigns : ∃ name p q rest, tokens = ⟨.identifier name, p⟩ :: ⟨.assign, q⟩ :: rest
  · obtain ⟨name, p, q, rest, rfl⟩ := assigns
    have follows : ¬ Token.assign.endsOperand := Bool.false_ne_true
    have written : writeProducts (⟨.identifier name, p⟩ :: ⟨.assign, q⟩ :: rest) =
        ⟨.identifier name, p⟩ :: ⟨.assign, q⟩ :: writeProducts rest := by
      rw [← writtenAfter_eq_writeProducts follows rest]
      rfl
    simp only [written, assembleStatement, assembleAll_writeProducts writes, bind_map_left,
      map_bind, writes.assignment]
    rfl
  · have plain : assembleStatement b tokens = assembleAll b tokens := by
      apply assembleStatement_eq_assembleAll
      intro name p q rest tokens_eq
      exact assigns ⟨name, p, q, rest, tokens_eq⟩
    have writtenPlain :
        assembleStatement b (writeProducts tokens) = assembleAll b (writeProducts tokens) := by
      apply assembleStatement_eq_assembleAll
      intro name p q rest tokens_eq
      obtain ⟨rest', tokens_eq⟩ := writeProducts_eq_assignment tokens_eq
      exact assigns ⟨name, p, q, rest', tokens_eq⟩
    rw [writtenPlain, plain, assembleAll_writeProducts writes]

theorem Bindings.record_written (bindings : Bindings) (tree : Tree) :
    bindings.record tree.written = bindings.record tree := by
  cases tree <;> simp only [Tree.written, record]

/-- An implied product is a star that is left out: with the stars put in, tokens have
the same tree but for the operators of its products, the same effect and the same
error. -/
theorem evaluateTokens_writeProducts (tokens : List Lexeme) (bindings : Bindings) :
    evaluateTokens (writeProducts tokens) bindings =
        Tree.written <$> evaluateTokens tokens bindings ∧
      bindings.after (evaluateTokens (writeProducts tokens) bindings) =
        bindings.after (evaluateTokens tokens bindings) := by
  have evaluates : evaluateTokens (writeProducts tokens) bindings =
      Tree.written <$> evaluateTokens tokens bindings :=
    assembleStatement_writeProducts (Tree.writesProducts_builder bindings) tokens
  constructor
  · exact evaluates
  · rw [evaluates]
    cases evaluateTokens tokens bindings with
    | error e => rfl
    | ok tree => exact bindings.record_written tree

end Statements

end Calculator
