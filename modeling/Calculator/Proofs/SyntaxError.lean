import Calculator.Proofs.Scan
import Calculator.Statement
import Calculator.Token.Brackets

/-!
Syntax errors point at their cause.

`ParseError.Blames` says what the position of each syntax error means in terms of the text
and its tokens alone: which token is out of place and what stands before it, which
parenthesis has no partner, which equals sign assigns nothing.

A state of the assembly keeps the positions of the parentheses that are open. `Reached`
ties it to the tokens that have been taken: these are the open ones of `brackets`, no
closing one is without a partner and nothing has been assigned. A step keeps this
(`Reached.step`); where it refuses a token, `Refuses` says why. An expression ends only
before a token that cannot go on with it (`Reached.of_finished`), and that is the closing
parenthesis without a partner, the equals sign or the end.
-/

namespace Calculator

/-! ### What the errors mean -/

/-- After the tokens of a statement so far, an operand has to follow: there are none yet,
or they end with an operator, an open parenthesis, or the equals sign of the assignment. -/
def ExpectsOperand (before : List Lexeme) : Prop :=
  before = [] ∨
  (∃ front last, before = front ++ [last] ∧
    (last.token.operator?.isSome ∨ last.token = .openParen)) ∨
  ∃ name p q, before = [⟨.identifier name, p⟩, ⟨.assign, q⟩]

/-- The tokens after the target of an assignment; all of them, where nothing is assigned. -/
def afterTarget : List Lexeme → List Lexeme
  | ⟨.identifier _, _⟩ :: ⟨.assign, _⟩ :: rest => rest
  | tokens => tokens

/-- What the position of a syntax error means. Faults of the evaluation are no syntax
errors, and nothing is said about them. -/
def ParseError.Blames (text : String) (tokens : List Lexeme) (e : ParseError) : Prop :=
  match e.cause with
  | .unexpectedToken token =>
    token ∈ [Token.plus, .star, .slash, .percent, .caret, .closeParen] ∧
      ∃ before after, tokens = before ++ ⟨token, e.position⟩ :: after ∧ ExpectsOperand before ∧
        ∀ other ∈ before ++ after, other.position ≠ e.position
  | .unexpectedEnd => e.position = text.utf8ByteSize
  | .unclosedParen => (brackets tokens).opened.head? = some e.position
  | .trailingTokens token =>
    token = .closeParen ∧ (brackets tokens).stray.head? = some e.position
  | .misplacedAssignment =>
    (afterTarget tokens).find? (fun lexeme => lexeme.token = .assign) =
      some ⟨.assign, e.position⟩
  | .fault _ => True

/-! ### Matching -/

section Matching

variable {matched : Brackets} {tokens : List Lexeme} {lexeme : Lexeme}

theorem brackets_append (before after : List Lexeme) :
    brackets (before ++ after) = after.foldl Brackets.take (brackets before) :=
  List.foldl_append

theorem brackets_concat (before : List Lexeme) (lexeme : Lexeme) :
    brackets (before ++ [lexeme]) = (brackets before).take lexeme :=
  brackets_append before [lexeme]

theorem Brackets.take_of_ne (opens : lexeme.token ≠ .openParen)
    (closes : lexeme.token ≠ .closeParen) : matched.take lexeme = matched := by
  unfold take
  split
  · exact absurd ‹_› opens
  · exact absurd ‹_› closes
  · exact absurd ‹_› closes
  · rfl

/-- A closing parenthesis without a partner never finds one. -/
theorem Brackets.stray_isPrefix (tokens : List Lexeme) (matched : Brackets) :
    matched.stray <+: (tokens.foldl take matched).stray := by
  induction tokens generalizing matched with
  | nil => exact List.prefix_refl _
  | cons lexeme tokens ih =>
    have kept : matched.stray <+: (matched.take lexeme).stray := by
      unfold take
      split
      · exact List.prefix_refl _
      · exact List.prefix_append _ _
      · exact List.prefix_refl _
      · exact List.prefix_refl _
    exact kept.trans (ih _)

end Matching

namespace Assembly

variable {α : Type} {b : Builder α} {enclosures : List (Enclosure α)}
  {pending : List (Pending α)} {s s' : State α} {value : α} {used tokens : List Lexeme}
  {lexeme : Lexeme} {e : ParseError}

/-! ### Faults -/

theorem locate_eq_error {position : Nat} {result : Except Fault α}
    (h : Fault.locate position result = .error e) : ∃ fault, e = ⟨.fault fault, position⟩ := by
  obtain ⟨fault, -, rfl⟩ := mapError_eq_error.mp h
  exact ⟨fault, rfl⟩

theorem Pending.complete_eq_error {p : Pending α} (h : p.complete b value = .error e) :
    ∃ fault position, e = ⟨.fault fault, position⟩ := by
  cases p with
  | negation position =>
    obtain ⟨fault, rfl⟩ := locate_eq_error h
    exact ⟨fault, position, rfl⟩
  | operation op left position =>
    obtain ⟨fault, rfl⟩ := locate_eq_error h
    exact ⟨fault, position, rfl⟩

/-- Where operations are completed and one of them fails, it is one of those that wait. -/
theorem unwind_eq_error {level : Level} (h : unwind b level pending value = .error e) :
    ∃ p ∈ pending, ∃ operand, p.complete b operand = .error e := by
  induction pending generalizing value with
  | nil => cases h
  | cons p pending ih =>
    unfold unwind at h
    split at h
    · rcases bind_eq_error.mp h with failed | ⟨value, -, failed⟩
      · exact ⟨p, List.mem_cons_self, value, failed⟩
      · obtain ⟨q, mem, failed⟩ := ih failed
        exact ⟨q, List.mem_cons_of_mem p mem, failed⟩
    · cases h

theorem settle_eq_error (h : settle b pending value = .error e) :
    ∃ p ∈ pending, ∃ operand, p.complete b operand = .error e := by
  induction pending generalizing value with
  | nil => cases h
  | cons p pending ih =>
    rcases bind_eq_error.mp h with failed | ⟨value, -, failed⟩
    · exact ⟨p, List.mem_cons_self, value, failed⟩
    · obtain ⟨q, mem, failed⟩ := ih failed
      exact ⟨q, List.mem_cons_of_mem p mem, failed⟩

theorem fault_of_complete (h : ∃ p ∈ pending, ∃ operand, p.complete b operand = .error e) :
    ∃ fault position, e = ⟨.fault fault, position⟩ := by
  obtain ⟨p, -, operand, failed⟩ := h
  exact p.complete_eq_error failed

theorem Bracket.close_eq_error {bracket : Bracket} (h : bracket.close b value = .error e) :
    ∃ fault position, e = ⟨.fault fault, position⟩ := by
  cases bracket with
  | group => cases h
  | call name position =>
    obtain ⟨fault, rfl⟩ := locate_eq_error h
    exact ⟨fault, position, rfl⟩

/-! ### What a state says about the tokens before it -/

/-- The open parenthesis of a call whose argument has not begun. -/
def Focus.opened : Focus α → List Nat
  | .argument _ _ opened => [opened]
  | _ => []

/-- The positions of the parentheses that are open, the last one first. -/
def State.opened (s : State α) : List Nat :=
  s.focus.opened ++ s.enclosures.map Enclosure.opened

/-- Whether an operand has to begin with the next token. -/
def Focus.needsOperand : Focus α → Bool
  | .operand | .argument _ _ _ => true
  | _ => false

/-- Within an expression an operand may follow: it has not begun yet, or the last token is
an operator or an open parenthesis. -/
def Ready (used : List Lexeme) : Prop :=
  ∀ last ∈ used.getLast?, last.token.operator?.isSome ∨ last.token = .openParen

/-- The tokens of an expression so far have no closing parenthesis without a partner and
no equals sign. -/
structure Regular (used : List Lexeme) : Prop where
  stray : (brackets used).stray = []
  unassigned : ∀ lexeme ∈ used, lexeme.token ≠ .assign

/-- A state that is reached by taking the tokens `used`. -/
structure Reached (used : List Lexeme) (s : State α) : Prop extends Regular used where
  opened : (brackets used).opened = s.opened
  ready : s.focus.needsOperand → Ready used

theorem Reached.start : Reached [] (State.start : State α) where
  stray := rfl
  unassigned := nofun
  opened := rfl
  ready _ := nofun

theorem ready_concat (h : lexeme.token.operator?.isSome ∨ lexeme.token = .openParen) :
    Ready (used ++ [lexeme]) := by
  intro last mem
  rw [List.getLast?_concat] at mem
  cases mem
  exact h

/-! ### Steps -/

namespace Regular

variable (regular : Regular used)

include regular

theorem concat (closes : lexeme.token = .closeParen → (brackets used).opened ≠ [])
    (assigns : lexeme.token ≠ .assign) : Regular (used ++ [lexeme]) where
  stray := by
    rw [brackets_concat]
    unfold Brackets.take
    split
    · exact regular.stray
    · exact absurd ‹_› (closes ‹_›)
    · exact regular.stray
    · exact regular.stray
  unassigned := List.forall_mem_append.mpr
    ⟨regular.unassigned, List.forall_mem_singleton.mpr assigns⟩

/-- A token that is no parenthesis changes nothing about the open ones. -/
theorem reached_concat (opens : lexeme.token ≠ .openParen) (closes : lexeme.token ≠ .closeParen)
    (assigns : lexeme.token ≠ .assign) (opened : (brackets used).opened = s.opened)
    (ready : s.focus.needsOperand → lexeme.token.operator?.isSome) :
    Reached (used ++ [lexeme]) s where
  toRegular := regular.concat (fun h => absurd h closes) assigns
  opened := by rw [brackets_concat, Brackets.take_of_ne opens closes, opened]
  ready needs := ready_concat (.inl (ready needs))

theorem reached_openParen {position : Nat}
    (opened : s.opened = position :: (brackets used).opened) :
    Reached (used ++ [⟨.openParen, position⟩]) s where
  toRegular := regular.concat nofun nofun
  opened := by rw [brackets_concat, opened]; rfl
  ready _ := ready_concat (.inr rfl)

theorem reached_closeParen {position opens : Nat}
    (opened : (brackets used).opened = opens :: s.opened) (complete : ¬ s.focus.needsOperand) :
    Reached (used ++ [⟨.closeParen, position⟩]) s where
  toRegular := regular.concat (fun _ => by rw [opened]; exact List.cons_ne_nil _ _) nofun
  opened := by
    rw [brackets_concat]
    unfold Brackets.take
    simp only [opened]
  ready needs := absurd needs complete

theorem reached_beginOperand (opened : (brackets used).opened = enclosures.map Enclosure.opened)
    (h : beginOperand b .sum enclosures pending lexeme = .ok s) :
    Reached (used ++ [lexeme]) s := by
  obtain ⟨token, position⟩ := lexeme
  cases token with
  | number value =>
    cases h
    exact regular.reached_concat nofun nofun nofun opened nofun
  | identifier name =>
    cases h
    exact regular.reached_concat nofun nofun nofun opened nofun
  | openParen =>
    cases h
    exact regular.reached_openParen (congrArg (position :: ·) opened.symm)
  | minus =>
    rw [beginOperand_minus] at h
    cases h
    exact regular.reached_concat nofun nofun nofun opened fun _ => rfl
  | _ => cases h

theorem reached_afterValue (opened : (brackets used).opened = enclosures.map Enclosure.opened)
    (h : afterValue b .sum enclosures pending value lexeme = .ok (.taken s)) :
    Reached (used ++ [lexeme]) s := by
  cases sign : lexeme.token.operator? with
  | some op =>
    rw [afterValue_operator sign] at h
    obtain ⟨r, -, ⟨⟩⟩ := map_eq_ok.mp h
    refine regular.reached_concat ?_ ?_ ?_ opened fun _ => by rw [sign]; rfl
    all_goals
      intro other
      rw [other] at sign
      cases sign
  | none =>
    by_cases begins : lexeme.token.startsOperand
    · rw [afterValue_operand begins] at h
      obtain ⟨r, -, begun⟩ := bind_eq_ok.mp h
      obtain ⟨s, begun, ⟨⟩⟩ := map_eq_ok.mp begun
      exact regular.reached_beginOperand opened begun
    · simp only [afterValue, sign, if_neg begins] at h
      obtain ⟨settled, -, h⟩ := bind_eq_ok.mp h
      obtain ⟨token, position⟩ := lexeme
      cases enclosures with
      | nil => cases h
      | cons e enclosures =>
        cases token with
        | closeParen =>
          obtain ⟨closed, -, ⟨⟩⟩ := bind_eq_ok.mp h
          refine regular.reached_closeParen opened ?_
          intro h
          cases h
        | _ => cases h

end Regular

/-- A token that is taken keeps what the state says about the tokens. -/
theorem Reached.step (reached : Reached used s) (h : step b .sum s lexeme = .ok (.taken s')) :
    Reached (used ++ [lexeme]) s' := by
  obtain ⟨enclosures, pending, focus⟩ := s
  have opened := reached.opened
  cases focus with
  | operand =>
    obtain ⟨s, begun, ⟨⟩⟩ := map_eq_ok.mp h
    exact reached.reached_beginOperand opened begun
  | argument called position paren =>
    obtain ⟨token, p⟩ := lexeme
    cases token with
    | closeParen =>
      obtain ⟨value, -, ⟨⟩⟩ := bind_eq_ok.mp h
      exact reached.reached_closeParen opened nofun
    | _ =>
      have opened : (brackets used).opened =
          (⟨.call called position, paren, pending⟩ :: enclosures).map Enclosure.opened :=
        opened
      obtain ⟨s, begun, ⟨⟩⟩ := map_eq_ok.mp h
      exact reached.reached_beginOperand opened begun
  | name read position =>
    obtain ⟨token, p⟩ := lexeme
    cases token with
    | openParen =>
      obtain ⟨⟨⟩, -, ⟨⟩⟩ := bind_eq_ok.mp h
      exact reached.reached_openParen (congrArg (p :: ·) opened.symm)
    | assign => cases h
    | _ =>
      obtain ⟨value, -, h⟩ := bind_eq_ok.mp h
      exact reached.reached_afterValue opened h
  | value value => exact reached.reached_afterValue opened h

/-! ### Refusals -/

/-- Why a token is refused after the tokens `used`. -/
inductive Refuses (used : List Lexeme) (lexeme : Lexeme) : ParseError → Prop where
  | fault {fault : Fault} {position : Nat} : Refuses used lexeme ⟨.fault fault, position⟩
  | unexpected : Ready used → lexeme.token ≠ .minus → ¬ lexeme.token.startsOperand →
      Refuses used lexeme (.unexpected lexeme)
  | assigned : lexeme.token = .assign →
      Refuses used lexeme ⟨.misplacedAssignment, lexeme.position⟩
  | unclosed {position : Nat} : (brackets used).opened.head? = some position →
      lexeme.token.joins? = none → lexeme.token ≠ .closeParen → lexeme.token ≠ .assign →
      Refuses used lexeme ⟨.unclosedParen, position⟩
  | trailing : (brackets used).opened = [] → lexeme.token.joins? = none →
      lexeme.token ≠ .assign → lexeme.token ≠ .endOfInput →
      Refuses used lexeme ⟨.trailingTokens lexeme.token, lexeme.position⟩

theorem refuses_of_fault (h : ∃ fault position, e = ⟨.fault fault, position⟩) :
    Refuses used lexeme e := by
  obtain ⟨fault, position, rfl⟩ := h
  exact .fault

theorem refuses_of_locate {β : Type} {position : Nat} {result : Except Fault β}
    (h : Fault.locate position result = .error e) : Refuses used lexeme e := by
  obtain ⟨fault, rfl⟩ := locate_eq_error h
  exact .fault

theorem refuses_beginOperand (ready : Ready used)
    (h : beginOperand b .sum enclosures pending lexeme = .error e) : Refuses used lexeme e := by
  obtain ⟨token, position⟩ := lexeme
  cases token with
  | number | identifier | openParen => cases h
  | minus =>
    rw [beginOperand_minus] at h
    cases h
  | _ =>
    cases h
    exact .unexpected ready nofun nofun

theorem joins?_eq_none {token : Token} (sign : token.operator? = none)
    (begins : ¬ token.startsOperand) : token.joins? = none := by
  rw [Token.joins?, if_neg begins, sign]

theorem refuses_afterValue (opened : (brackets used).opened = enclosures.map Enclosure.opened)
    (h : afterValue b .sum enclosures pending value lexeme = .error e) :
    Refuses used lexeme e := by
  cases sign : lexeme.token.operator? with
  | some op =>
    rw [afterValue_operator sign] at h
    exact refuses_of_fault (fault_of_complete (unwind_eq_error (map_eq_error.mp h)))
  | none =>
    by_cases begins : lexeme.token.startsOperand
    · -- An implied product is joined, and then its operand begins with a token that can.
      rw [afterValue_operand begins] at h
      rcases bind_eq_error.mp h with failed | ⟨r, -, failed⟩
      · exact refuses_of_fault (fault_of_complete (unwind_eq_error failed))
      · have refused := map_eq_error.mp failed
        obtain ⟨token, position⟩ := lexeme
        cases token with
        | number | identifier | openParen => cases refused
        | _ => cases begins
    · have stops := joins?_eq_none sign begins
      simp only [afterValue, sign, if_neg begins] at h
      rcases bind_eq_error.mp h with failed | ⟨settled, -, failed⟩
      · exact refuses_of_fault (fault_of_complete (settle_eq_error failed))
      · obtain ⟨token, position⟩ := lexeme
        cases enclosures with
        | nil => cases failed
        | cons e enclosures =>
          have last : (brackets used).opened.head? = some e.opened := by rw [opened]; rfl
          cases token with
          | closeParen =>
            rcases bind_eq_error.mp failed with failed | ⟨closed, -, failed⟩
            · exact refuses_of_fault (Bracket.close_eq_error failed)
            · cases failed
          | assign =>
            cases failed
            exact .assigned rfl
          | _ =>
            cases failed
            refine .unclosed last stops ?_ ?_ <;> intro h <;> cases h

theorem Reached.refuses (reached : Reached used s) (h : Assembly.step b .sum s lexeme = .error e) :
    Refuses used lexeme e := by
  obtain ⟨enclosures, pending, focus⟩ := s
  have opened := reached.opened
  cases focus with
  | operand => exact refuses_beginOperand (reached.ready rfl) (map_eq_error.mp h)
  | argument called position paren =>
    obtain ⟨token, p⟩ := lexeme
    cases token with
    | closeParen =>
      rcases bind_eq_error.mp h with failed | ⟨value, -, failed⟩
      · exact refuses_of_locate failed
      · cases failed
    | _ => exact refuses_beginOperand (reached.ready rfl) (map_eq_error.mp h)
  | name read position =>
    obtain ⟨token, p⟩ := lexeme
    cases token with
    | openParen =>
      rcases bind_eq_error.mp h with failed | ⟨⟨⟩, -, failed⟩
      · exact refuses_of_locate failed
      · cases failed
    | assign =>
      cases h
      exact .assigned rfl
    | _ =>
      rcases bind_eq_error.mp h with failed | ⟨value, -, failed⟩
      · exact refuses_of_locate failed
      · exact refuses_afterValue opened failed
  | value value => exact refuses_afterValue opened h

/-! ### The end of an expression -/

theorem finished_afterValue {result : α}
    (h : afterValue b .sum enclosures pending value lexeme = .ok (.finished result)) :
    enclosures = [] ∧ lexeme.token.joins? = none := by
  cases sign : lexeme.token.operator? with
  | some op =>
    rw [afterValue_operator sign] at h
    obtain ⟨r, -, ⟨⟩⟩ := map_eq_ok.mp h
  | none =>
    by_cases begins : lexeme.token.startsOperand
    · rw [afterValue_operand begins] at h
      obtain ⟨r, -, begun⟩ := bind_eq_ok.mp h
      obtain ⟨s, -, ⟨⟩⟩ := map_eq_ok.mp begun
    · refine ⟨?_, joins?_eq_none sign begins⟩
      simp only [afterValue, sign, if_neg begins] at h
      obtain ⟨settled, -, h⟩ := bind_eq_ok.mp h
      obtain ⟨token, position⟩ := lexeme
      cases enclosures with
      | nil => rfl
      | cons e enclosures =>
        cases token with
        | closeParen =>
          obtain ⟨closed, -, ⟨⟩⟩ := bind_eq_ok.mp h
        | _ => cases h

/-- An expression ends where no parenthesis is open, before a token that cannot go on with
it. -/
theorem Reached.of_finished {result : α} (reached : Reached used s)
    (h : Assembly.step b .sum s lexeme = .ok (.finished result)) :
    (brackets used).opened = [] ∧ lexeme.token.joins? = none := by
  obtain ⟨enclosures, pending, focus⟩ := s
  have opened := reached.opened
  have ended {value : α}
      (h : afterValue b .sum enclosures pending value lexeme = .ok (.finished result))
      (opened : (brackets used).opened = enclosures.map Enclosure.opened) :
      (brackets used).opened = [] ∧ lexeme.token.joins? = none := by
    obtain ⟨rfl, stops⟩ := finished_afterValue h
    exact ⟨opened, stops⟩
  cases focus with
  | operand =>
    obtain ⟨s, -, ⟨⟩⟩ := map_eq_ok.mp h
  | argument called position paren =>
    obtain ⟨token, p⟩ := lexeme
    cases token with
    | closeParen =>
      obtain ⟨value, -, ⟨⟩⟩ := bind_eq_ok.mp h
    | _ =>
      obtain ⟨s, -, ⟨⟩⟩ := map_eq_ok.mp h
  | name read position =>
    obtain ⟨token, p⟩ := lexeme
    cases token with
    | openParen =>
      obtain ⟨⟨⟩, -, ⟨⟩⟩ := bind_eq_ok.mp h
    | assign => cases h
    | _ =>
      obtain ⟨value, -, h⟩ := bind_eq_ok.mp h
      exact ended h opened
  | value value => exact ended h opened

/-! ### Runs -/

theorem step_endOfInput_ne_taken {position : Nat} :
    Assembly.step b .sum s ⟨.endOfInput, position⟩ ≠ .ok (.taken s') := by
  obtain ⟨enclosures, pending, focus⟩ := s
  have stops {value : α} :
      afterValue b .sum enclosures pending value ⟨.endOfInput, position⟩ ≠ .ok (.taken s') := by
    intro h
    obtain ⟨settled, -, h⟩ := bind_eq_ok.mp h
    cases enclosures <;> cases h
  intro h
  cases focus with
  | operand | argument => cases h
  | name read p =>
    obtain ⟨value, -, h⟩ := bind_eq_ok.mp h
    exact stops h
  | value value => exact stops h

/-- A run over tokens that are closed takes some of them, and halts at the next one: it is
refused, or the expression ends before it. What every token that is taken keeps holds there. -/
theorem halts {Holds : List Lexeme → State α → Prop} {endsAt : Nat} {all : List Lexeme}
    (keeps : ∀ {used lexeme rest s s'}, all = used ++ lexeme :: rest → Holds used s →
      Assembly.step b .sum s lexeme = .ok (.taken s') → Holds (used ++ [lexeme]) s')
    (holds : Holds used s) (closed : Closed endsAt tokens) (split : all = used ++ tokens) :
    ∃ before lexeme after s', all = before ++ lexeme :: after ∧ Holds before s' ∧
      ((∃ e, Assembly.step b .sum s' lexeme = .error e ∧ run b .sum s tokens = .error e) ∨
        ∃ value, Assembly.step b .sum s' lexeme = .ok (.finished value) ∧
          run b .sum s tokens = .ok (value, lexeme :: after)) := by
  induction closed generalizing used s with
  | last =>
    refine ⟨used, _, [], s, split, holds, ?_⟩
    cases stepped : Assembly.step b .sum s ⟨.endOfInput, endsAt⟩ with
    | error e => exact .inl ⟨e, rfl, by rw [run, stepped, error_bind]⟩
    | ok progress =>
      cases progress with
      | taken s' => exact absurd stepped step_endOfInput_ne_taken
      | finished value => exact .inr ⟨value, rfl, by rw [run, stepped, ok_bind]; rfl⟩
  | @cons lexeme tokens _ _ ih =>
    cases stepped : Assembly.step b .sum s lexeme with
    | error e =>
      exact ⟨used, lexeme, tokens, s, split, holds,
        .inl ⟨e, stepped, by rw [run, stepped, error_bind]⟩⟩
    | ok progress =>
      cases progress with
      | taken s' =>
        have goesOn : run b .sum s (lexeme :: tokens) = run b .sum s' tokens := by
          rw [run, stepped, ok_bind]
        rw [goesOn]
        exact ih (keeps split holds stepped) (by rw [split, List.append_cons])
      | finished value =>
        exact ⟨used, lexeme, tokens, s, split, holds,
          .inr ⟨value, stepped, by rw [run, stepped, ok_bind]; rfl⟩⟩

/-- An expression that fails does so at a token that is refused. -/
theorem refuses_of_assembleAll {endsAt : Nat} (closed : Closed endsAt tokens)
    (h : assembleAll b tokens = .error e) :
    ∃ before lexeme after, tokens = before ++ lexeme :: after ∧ Regular before ∧
      Refuses before lexeme e := by
  obtain ⟨before, lexeme, after, s, split, reached, halt⟩ :=
    halts (fun _ => Reached.step (b := b)) Reached.start closed (List.nil_append tokens).symm
  refine ⟨before, lexeme, after, split, reached.toRegular, ?_⟩
  rw [assembleAll, assemble] at h
  rcases halt with ⟨e', refused, failed⟩ | ⟨value, finished, ended⟩
  · rw [failed] at h
    cases h
    exact reached.refuses refused
  · obtain ⟨opened, stops⟩ := reached.of_finished finished
    rw [ended, ok_bind] at h
    obtain ⟨token, position⟩ := lexeme
    cases token with
    | endOfInput => cases h
    | assign =>
      cases h
      exact .assigned rfl
    | _ =>
      cases h
      exact .trailing opened stops nofun nofun

end Assembly

/-! ### Statements -/

section Statements

variable {text : String} {target before after body tokens : List Lexeme} {lexeme : Lexeme}
  {e : ParseError}

/-- What stands before the expression of a statement: nothing, or the target of the
assignment. -/
structure IsTarget (target body : List Lexeme) : Prop where
  brackets_eq : brackets (target ++ body) = brackets body
  afterTarget_eq : afterTarget (target ++ body) = body
  expects {before : List Lexeme} : Assembly.Ready before → ExpectsOperand (target ++ before)

theorem isTarget_nil
    (h : ∀ name p q rest, body ≠ ⟨.identifier name, p⟩ :: ⟨.assign, q⟩ :: rest) :
    IsTarget [] body where
  brackets_eq := rfl
  afterTarget_eq := by
    rw [List.nil_append]
    unfold afterTarget
    split
    · exact absurd rfl (h _ _ _ _)
    · rfl
  expects {before} ready := by
    rcases List.eq_nil_or_concat' before with rfl | ⟨front, last, rfl⟩
    · exact .inl rfl
    · exact .inr (.inl ⟨front, last, List.nil_append _, ready last List.getLast?_concat⟩)

theorem isTarget_assignment (name : String) (p q : Nat) (body : List Lexeme) :
    IsTarget [⟨.identifier name, p⟩, ⟨.assign, q⟩] body where
  brackets_eq := rfl
  afterTarget_eq := rfl
  expects {before} ready := by
    rcases List.eq_nil_or_concat' before with rfl | ⟨front, last, rfl⟩
    · exact .inr (.inr ⟨name, p, q, List.append_nil _⟩)
    · exact .inr (.inl ⟨_, last, (List.append_assoc _ _ _).symm, ready last List.getLast?_concat⟩)

theorem position_ne_of_ascending
    (ascending : (before ++ lexeme :: after).Pairwise fun a b => a.position < b.position) :
    ∀ other ∈ before ++ after, other.position ≠ lexeme.position := by
  obtain ⟨-, later, earlier⟩ := List.pairwise_append.mp ascending
  intro other mem
  rcases List.mem_append.mp mem with mem | mem
  · exact Nat.ne_of_lt (earlier other mem lexeme List.mem_cons_self)
  · exact Nat.ne_of_gt ((List.pairwise_cons.mp later).1 other mem)

theorem find?_assign (regular : Assembly.Regular before) (assigns : lexeme.token = .assign) :
    (before ++ lexeme :: after).find? (fun lexeme => lexeme.token = .assign) =
      some ⟨.assign, lexeme.position⟩ := by
  have none_before : before.find? (fun lexeme => decide (lexeme.token = .assign)) = none :=
    List.find?_eq_none.mpr fun other mem => by simpa using regular.unassigned other mem
  rw [List.find?_append, none_before, Option.none_or,
    List.find?_cons_of_pos (by simpa using assigns), ← assigns]

namespace Assembly.Refuses

/-- A refused token explains the error of the whole statement. -/
theorem blames (refuses : Refuses before lexeme e) (regular : Regular before)
    (isTarget : IsTarget target (before ++ lexeme :: after))
    (closed : Closed text.utf8ByteSize (before ++ lexeme :: after))
    (ascending :
      (target ++ (before ++ lexeme :: after)).Pairwise fun a b => a.position < b.position) :
    e.Blames text (target ++ (before ++ lexeme :: after)) := by
  have closed := closed.of_append
  cases refuses with
  | fault => trivial
  | assigned assigns =>
    show (afterTarget _).find? _ = some _
    rw [isTarget.afterTarget_eq, find?_assign regular assigns]
  | unexpected ready notMinus notOperand =>
    obtain ⟨token, position⟩ := lexeme
    have blamed (others : token ∈ [Token.plus, .star, .slash, .percent, .caret, .closeParen]) :
        ParseError.Blames text (target ++ (before ++ ⟨token, position⟩ :: after))
          ⟨.unexpectedToken token, position⟩ := by
      refine ⟨others, target ++ before, after, (List.append_assoc _ _ _).symm,
        isTarget.expects ready, ?_⟩
      rw [← List.append_assoc] at ascending
      exact position_ne_of_ascending ascending
    cases token with
    | number | identifier | openParen => exact absurd rfl notOperand
    | minus => exact absurd rfl notMinus
    | assign =>
      show (afterTarget _).find? _ = some ⟨.assign, position⟩
      rw [isTarget.afterTarget_eq, find?_assign regular rfl]
    | blank =>
      cases closed with
      | cons plain => exact absurd rfl plain.1
    | endOfInput =>
      show position = text.utf8ByteSize
      cases closed with
      | last => rfl
      | cons plain => exact absurd rfl plain.2
    | _ => exact blamed (by decide)
  | @unclosed position last stops notClose notAssign =>
    show (brackets _).opened.head? = some position
    obtain ⟨token, p⟩ := lexeme
    cases token with
    | closeParen => exact absurd rfl notClose
    | assign => exact absurd rfl notAssign
    | blank =>
      cases closed with
      | cons plain => exact absurd rfl plain.1
    | endOfInput =>
      cases closed with
      | last =>
        rw [isTarget.brackets_eq, brackets_concat,
          Brackets.take_of_ne Token.noConfusion Token.noConfusion, last]
      | cons plain => exact absurd rfl plain.2
    | _ => cases stops
  | trailing opened stops notAssign notEnd =>
    obtain ⟨token, position⟩ := lexeme
    cases token with
    | assign => exact absurd rfl notAssign
    | endOfInput => exact absurd rfl notEnd
    | blank =>
      cases closed with
      | cons plain => exact absurd rfl plain.1
    | closeParen =>
      have stray : ((brackets before).take ⟨.closeParen, position⟩).stray = [position] := by
        unfold Brackets.take
        simp only [opened, regular.stray, List.nil_append]
      obtain ⟨later, stray_eq⟩ :=
        Brackets.stray_isPrefix after ((brackets before).take ⟨.closeParen, position⟩)
      refine ⟨rfl, ?_⟩
      rw [isTarget.brackets_eq, List.append_cons, brackets_append, brackets_concat, ← stray_eq,
        stray]
      rfl
    | _ => cases stops

end Assembly.Refuses

theorem blames_of_assembleStatement {α : Type} {b : Builder α}
    (closed : Closed text.utf8ByteSize tokens)
    (ascending : tokens.Pairwise fun a b => a.position < b.position)
    (h : assembleStatement b tokens = .error e) : e.Blames text tokens := by
  unfold assembleStatement at h
  split at h
  · rename_i name p q body
    rcases bind_eq_error.mp h with failed | ⟨value, -, failed⟩
    · have bodyClosed := (closed.tail nofun).tail nofun
      obtain ⟨before, lexeme, after, rfl, regular, refuses⟩ :=
        Assembly.refuses_of_assembleAll bodyClosed failed
      exact refuses.blames regular (isTarget_assignment name p q _) bodyClosed ascending
    · cases failed
  · rename_i notAssignment
    obtain ⟨before, lexeme, after, rfl, regular, refuses⟩ :=
      Assembly.refuses_of_assembleAll closed h
    exact refuses.blames regular (isTarget_nil notAssignment) closed ascending

/-- The position of a syntax error in a text points at its cause. -/
theorem evaluate_blames {bindings : Bindings} (scanned : scan text = .ok tokens)
    (fails : evaluate text bindings = .error (.parse e)) : e.Blames text tokens := by
  rw [evaluate, scanned] at fails
  obtain ⟨e', failed, ⟨⟩⟩ := mapError_eq_error.mp fails
  exact blames_of_assembleStatement (closed_of_scan scanned) (sliced_of_scan scanned).ascending
    failed

/-- Of the parentheses that are left open, the innermost is blamed. -/
theorem evaluate_blames_unclosed :
    (brackets [⟨.identifier "y", 0⟩, ⟨.assign, 2⟩, ⟨.openParen, 4⟩, ⟨.identifier "x", 5⟩,
      ⟨.closeParen, 6⟩, ⟨.openParen, 7⟩, ⟨.openParen, 8⟩, ⟨.identifier "x", 9⟩,
      ⟨.closeParen, 10⟩, ⟨.minus, 12⟩, ⟨.openParen, 14⟩, ⟨.identifier "x", 15⟩,
      ⟨.endOfInput, 16⟩]).opened.head? = some 14 := by
  have scanned : scan "y = (x)((x) - (x" =
      .ok [⟨.identifier "y", 0⟩, ⟨.assign, 2⟩, ⟨.openParen, 4⟩, ⟨.identifier "x", 5⟩,
        ⟨.closeParen, 6⟩, ⟨.openParen, 7⟩, ⟨.openParen, 8⟩, ⟨.identifier "x", 9⟩,
        ⟨.closeParen, 10⟩, ⟨.minus, 12⟩, ⟨.openParen, 14⟩, ⟨.identifier "x", 15⟩,
        ⟨.endOfInput, 16⟩] := by
    simp [scan, Token.scanFrom, Token.isBlank, Token.startsNumeral, Token.ofSymbol?]
  have fails : evaluate "y = (x)((x) - (x" (Bindings.empty.set "x" 2.0) =
      .error (.parse ⟨.unclosedParen, 14⟩) := by
    rw [evaluate, scanned]
    rfl
  exact evaluate_blames scanned fails

end Statements

end Calculator
