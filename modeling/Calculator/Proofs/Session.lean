import Calculator.CommandLine.Run
import Calculator.Proofs.Statement
import Calculator.Session

/-!
What statements and sessions write.

A statement writes if it is carried out as an assignment, and then the one name it assigns
(`after_of_not_assigns`, `evaluateTokens_assignment`). Which statements are assignments is
seen at their first two tokens, since no expression has an assignment at its root
(`isAssignment_of_assembleAll`). So the statements that do not write can be left out of a
session, and what is left runs as before (`session_filter`).
-/

namespace Calculator

open Assembly

variable {tokens rest : List Lexeme} {bindings : Bindings} {tree : Tree} {ε : Type}

/-! ### One statement -/

/-- Tokens that begin with a name and an equals sign. -/
def BeginsAssignment (tokens : List Lexeme) : Prop :=
  ∃ name p q rest, tokens = ⟨.identifier name, p⟩ :: ⟨.assign, q⟩ :: rest

/-- Nothing is written without an assignment. -/
theorem after_of_not_assigns {result : Except ε Tree} (reads : assigns result = false) :
    bindings.after result = bindings := by
  cases result with
  | error e => rfl
  | ok tree =>
    cases tree with
    | assignment => cases reads
    | _ => rfl

/-- The grammar has no expression that is an assignment. -/
theorem Derives.ne_assignment {level : Level} {f : Formula} {used : List Lexeme}
    (derives : Derives level f used) (name : String) (right : Formula) (p : Nat) :
    f ≠ .assignment name right p := by
  induction derives with
  | group _ ih | looser _ _ ih => exact ih
  | _ => intro same; cases same

/-- Without those two tokens there is only an expression. -/
theorem evaluateTokens_eq_assembleAll (other : ¬ BeginsAssignment tokens) :
    evaluateTokens tokens bindings = assembleAll (Tree.builder bindings) tokens := by
  refine assembleStatement_eq_assembleAll ?_
  intro name p q rest begins
  exact other ⟨name, p, q, rest, begins⟩

theorem isAssignment_of_assembleAll
    (h : assembleAll (Tree.builder bindings) tokens = .ok tree) : tree.isAssignment = false := by
  obtain ⟨f, derives, builds⟩ := exists_derives_of_assembleAll h
  have shape := Formula.formula?_of_build builds
  cases tree with
  | assignment name right value p =>
    obtain ⟨g, -, same⟩ := Option.bind_eq_some_iff.mp shape
    exact absurd (Option.some.inj same).symm (derives.ne_assignment name g p)
  | _ => rfl

/-- The right-hand side of a statement that assigns is a statement of its own. -/
theorem evaluateTokens_assignment {name : String} {p q : Nat}
    (h : evaluateTokens (⟨.identifier name, p⟩ :: ⟨.assign, q⟩ :: rest) bindings = .ok tree) :
    ∃ right, evaluateTokens rest bindings = .ok right ∧
      tree = .assignment name right right.value p := by
  obtain ⟨right, assembled, ⟨⟩⟩ := bind_eq_ok.mp h
  obtain ⟨f, derives, builds⟩ := exists_derives_of_assembleAll assembled
  refine ⟨right, ?_, rfl⟩
  rw [evaluateTokens, assembleStatement_eq_build (.expression derives), builds]

theorem assigns_evaluateTokens :
    assigns (evaluateTokens tokens bindings) ↔
      (∃ tree, evaluateTokens tokens bindings = .ok tree) ∧ BeginsAssignment tokens := by
  constructor
  · intro writes
    cases evaluated : evaluateTokens tokens bindings with
    | error e =>
      rw [evaluated] at writes
      cases writes
    | ok tree =>
      refine ⟨⟨tree, rfl⟩, Classical.byContradiction fun other => ?_⟩
      have expression := evaluated
      rw [evaluateTokens_eq_assembleAll other] at expression
      rw [evaluated, assigns, isAssignment_of_assembleAll expression] at writes
      cases writes
  · rintro ⟨⟨tree, evaluated⟩, name, p, q, rest, rfl⟩
    obtain ⟨right, -, rfl⟩ := evaluateTokens_assignment evaluated
    rw [evaluated]
    rfl

theorem exists_of_assigns {result : Except ε Tree} (writes : assigns result) :
    ∃ name right value p, result = .ok (.assignment name right value p) := by
  cases result with
  | error e => cases writes
  | ok tree =>
    cases tree with
    | assignment name right value p => exact ⟨name, right, value, p, rfl⟩
    | _ => cases writes

/-- A tree that is an assignment was written as one: its name and the equals sign come first, and
the rest is the right-hand side. -/
theorem exists_begins_of_evaluateTokens {name : String} {right : Tree} {value : Float} {p : Nat}
    (evaluated : evaluateTokens tokens bindings = .ok (.assignment name right value p)) :
    ∃ q rest, tokens = ⟨.identifier name, p⟩ :: ⟨.assign, q⟩ :: rest ∧
      evaluateTokens rest bindings = .ok right ∧ value = right.value := by
  have writes : assigns (evaluateTokens tokens bindings) := by
    rw [evaluated]
    rfl
  obtain ⟨-, name', p', q, rest, rfl⟩ := assigns_evaluateTokens.mp writes
  obtain ⟨right', found, ⟨⟩⟩ := evaluateTokens_assignment evaluated
  exact ⟨q, rest, rfl, found, rfl⟩

/-! ### Sessions -/

section Sessions

variable {text : String} {texts : List String}

theorem session_cons :
    session bindings (text :: texts) =
      (evaluate text bindings :: (session (execute text bindings).2 texts).1,
        (session (execute text bindings).2 texts).2) := rfl

/-- A command goes well if the session of its statements has no failing answer. -/
theorem runStatements_success {showTree : Bool} {output : String} :
    (CommandLine.runStatements showTree bindings output texts).success ↔
      ∀ answer ∈ (session bindings texts).1, ∃ tree, answer = .ok tree := by
  induction texts generalizing bindings output with
  | nil => simp [CommandLine.runStatements, session]
  | cons text texts ih =>
    rw [session_cons, CommandLine.runStatements, execute]
    cases evaluate text bindings with
    | error e => simp
    | ok tree => simp [ih]

end Sessions

end Calculator
