import Calculator.Proofs.Correspondence
import Calculator.Proofs.Reading

/-!
The variables that a statement reads.

A name is looked up unless a parenthesis follows, which makes it the name of a function, or it is
the target of an assignment (`Reads`). Bindings that agree on the names that are looked up cannot be
told apart by the answer, and what is written into them is the same (`evaluateTokens_of_reads`).
The value of a call depends on its name and its argument (`call_of_within`), whatever variable
has the same name.
-/

namespace Calculator

open Assembly

variable {tokens : List Lexeme} {bindings bindings' : Bindings} {name : String} {tree : Tree}

/-- A name stands among the tokens, not as the target of an assignment and not as the name of a
function. -/
def Reads (tokens : List Lexeme) (name : String) : Prop :=
  ∃ before p after, afterTarget tokens = before ++ ⟨.identifier name, p⟩ :: after ∧ Uncalled after

/-- The name that the tokens assign. -/
def target? : List Lexeme → Option String
  | ⟨.identifier name, _⟩ :: ⟨.assign, _⟩ :: _ => some name
  | _ => none

/-! ### Answers -/

namespace Correspondence

variable (same : ∀ before name p after, tokens = before ++ ⟨.identifier name, p⟩ :: after →
  Uncalled after → bindings.get? name = bindings'.get? name)

include same

theorem tokens_of_reads :
    (trees id id (fun _ => True) bindings bindings').Tokens tokens tokens := by
  induction tokens with
  | nil => exact .nil
  | cons lexeme tokens ih =>
    refine .cons ⟨_, trivial, rfl, rfl⟩ ?_ (ih ?_)
    · intro name isName uncalled
      exact same [] name lexeme.position tokens (by rw [← isName]; rfl) uncalled
    · intro before name p after split
      exact same (lexeme :: before) name p after (congrArg (lexeme :: ·) split)

omit same in
/-- Where nothing is moved, corresponding answers are equal. -/
theorem eq_of_matches_trees {answer answer' : Except ParseError Tree}
    (sides : Matches ((trees id id (fun _ => True) bindings bindings').Failures tokens)
      (trees id id (fun _ => True) bindings bindings').value answer answer') :
    answer = answer' := by
  cases sides with
  | ok related =>
    obtain ⟨source, -, rfl, rfl⟩ := related
    rfl
  | @error e e' failures =>
    cases failures with
    | located errors =>
      obtain ⟨cause, position⟩ := e
      obtain ⟨cause', position'⟩ := e'
      obtain ⟨causes, q, -, place, place'⟩ := errors
      obtain rfl : cause = cause' := causes
      obtain rfl : position = position' := place.trans place'.symm
      rfl
    | ranOut _ first second => rw [first, second]

end Correspondence

theorem evaluateTokens_eq_of_reads
    (same : ∀ name, Reads tokens name → bindings.get? name = bindings'.get? name) :
    evaluateTokens tokens bindings = evaluateTokens tokens bindings' := by
  have reads : ∀ before name p after,
      afterTarget tokens = before ++ ⟨.identifier name, p⟩ :: after → Uncalled after →
        bindings.get? name = bindings'.get? name :=
    fun before name p after split uncalled => same name ⟨before, p, after, split, uncalled⟩
  have corresponding := Correspondence.tokens_of_reads reads
  by_cases begins : BeginsAssignment tokens
  · obtain ⟨name, p, q, rest, rfl⟩ := begins
    exact Correspondence.eq_of_matches_trees
      (Correspondence.matches_assignment Correspondence.builders_trees ⟨p, trivial, rfl, rfl⟩
        corresponding)
  · have whole : afterTarget tokens = tokens := by
      unfold afterTarget
      split
      · exact absurd ⟨_, _, _, _, rfl⟩ begins
      · rfl
    rw [whole] at corresponding
    exact Correspondence.eq_of_matches_trees
      (Correspondence.matches_assembleStatement Correspondence.builders_trees corresponding)

/-! ### Writes -/

/-- The name with its value, if an answer is an assignment. -/
def written? {ε : Type} : Except ε Tree → Option (String × Float)
  | .ok (.assignment name _ value _) => some (name, value)
  | _ => none

theorem after_eq_setAll {ε : Type} (answer : Except ε Tree) :
    bindings.after answer = bindings.setAll (written? answer).toList := by
  cases answer with
  | error e => rfl
  | ok tree => cases tree <;> rfl

theorem target?_of_written? {value : Float}
    (writes : written? (evaluateTokens tokens bindings) = some (name, value)) :
    target? tokens = some name := by
  cases evaluated : evaluateTokens tokens bindings with
  | error e =>
    rw [evaluated] at writes
    cases writes
  | ok tree =>
    rw [evaluated] at writes
    cases tree with
    | assignment =>
      cases writes
      obtain ⟨q, rest, rfl, -⟩ := exists_begins_of_evaluateTokens evaluated
      rfl
    | _ => cases writes

/-! ### Calls -/

/-- The value of a call is what its function gives for the values of its arguments. -/
theorem call_of_build {f : Formula} {arguments : List Tree} {value : Float} {p : Nat}
    (built : f.build (Tree.builder bindings) = .ok tree)
    (within : Tree.Within (.call name arguments value p) tree) :
    call name (arguments.map Tree.value) = .ok value := by
  induction f generalizing tree with
  | number =>
    cases built
    cases within with
    | child mem => cases mem
  | reference =>
    obtain ⟨read, -, ⟨⟩⟩ := bind_eq_ok.mp (Fault.locate_eq_ok.mp built)
    cases within with
    | child mem => cases mem
  | assignment target right q ih =>
    obtain ⟨whole, builtRight, ⟨⟩⟩ := bind_eq_ok.mp built
    cases within with
    | child mem within =>
      cases List.mem_singleton.mp mem
      exact ih builtRight within
  | negation operand q ih =>
    obtain ⟨whole, builtOperand, built⟩ := bind_eq_ok.mp built
    obtain ⟨negated, -, ⟨⟩⟩ := bind_eq_ok.mp (Fault.locate_eq_ok.mp built)
    cases within with
    | child mem within =>
      cases List.mem_singleton.mp mem
      exact ih builtOperand within
  | operation op left right q ihl ihr =>
    obtain ⟨a, builtLeft, built⟩ := bind_eq_ok.mp built
    obtain ⟨b, builtRight, built⟩ := bind_eq_ok.mp built
    obtain ⟨applied, -, ⟨⟩⟩ := bind_eq_ok.mp (Fault.locate_eq_ok.mp built)
    cases within with
    | child mem within =>
      rcases List.mem_cons.mp mem with rfl | mem
      · exact ihl builtLeft within
      · cases List.mem_singleton.mp mem
        exact ihr builtRight within
  | call called argument q ih =>
    obtain ⟨_, -, built⟩ := bind_eq_ok.mp built
    obtain ⟨whole, builtArgument, built⟩ := bind_eq_ok.mp built
    obtain ⟨result, calls, ⟨⟩⟩ := bind_eq_ok.mp (Fault.locate_eq_ok.mp built)
    cases within with
    | root => exact calls
    | child mem within =>
      cases List.mem_singleton.mp mem
      exact ih builtArgument within
  | emptyCall called q =>
    obtain ⟨_, -, built⟩ := bind_eq_ok.mp built
    obtain ⟨result, calls, ⟨⟩⟩ := bind_eq_ok.mp (Fault.locate_eq_ok.mp built)
    exact absurd calls call_nil_ne_ok

theorem call_of_within {arguments : List Tree} {value : Float} {p : Nat}
    (evaluated : evaluateTokens tokens bindings = .ok tree)
    (within : Tree.Within (.call name arguments value p) tree) :
    call name (arguments.map Tree.value) = .ok value := by
  obtain ⟨f, -, built⟩ := exists_derivesStatement_of_assembleStatement evaluated
  exact call_of_build built within

/-! ### Statements -/

/-- Bindings that agree on the names that are read give the same answer. What is written is the
same, too: nothing, or the target with its value. So it does not matter what a name is bound to that
is not read, such as the name of a function that is only called; and where it is read as well, the
calls have the value that the function gives for their arguments. -/
theorem evaluateTokens_of_reads
    (same : ∀ name, Reads tokens name → bindings.get? name = bindings'.get? name) :
    evaluateTokens tokens bindings = evaluateTokens tokens bindings' ∧
    (∃ written : Option (String × Float),
      (∀ name value, written = some (name, value) → target? tokens = some name) ∧
      bindings.after (evaluateTokens tokens bindings) = bindings.setAll written.toList ∧
      bindings'.after (evaluateTokens tokens bindings') = bindings'.setAll written.toList) ∧
    (∀ name value, ¬ Reads tokens name →
      evaluateTokens tokens (bindings.set name value) = evaluateTokens tokens bindings) ∧
    ∀ tree, evaluateTokens tokens bindings = .ok tree → ∀ name arguments value p,
      Tree.Within (.call name arguments value p) tree →
        call name (arguments.map Tree.value) = .ok value := by
  have answers := evaluateTokens_eq_of_reads same
  refine ⟨answers, ⟨written? (evaluateTokens tokens bindings), ?_, ?_, ?_⟩, ?_, ?_⟩
  · intro name value writes
    exact target?_of_written? writes
  · exact after_eq_setAll _
  · rw [answers]
    exact after_eq_setAll _
  · intro name value unread
    refine evaluateTokens_eq_of_reads fun other reads => ?_
    rw [Bindings.get?_set, if_neg]
    rintro rfl
    exact unread reads
  · intro tree evaluated name arguments value p within
    exact call_of_within evaluated within

/-- The function is called although a variable has its name, and the target is not read. -/
theorem evaluateTokens_of_reads_call :
    let tokens : List Lexeme := [⟨.identifier "x", 0⟩, ⟨.assign, 1⟩, ⟨.identifier "log", 2⟩,
      ⟨.openParen, 5⟩, ⟨.identifier "e", 6⟩, ⟨.closeParen, 7⟩, ⟨.endOfInput, 8⟩]
    let others := (Bindings.initial.set "log" 2.0).set "x" 3.0
    evaluateTokens tokens .initial = evaluateTokens tokens others ∧
    ∃ written : Option (String × Float),
      (∀ name value, written = some (name, value) → name = "x") ∧
      Bindings.initial.after (evaluateTokens tokens .initial) =
        Bindings.initial.setAll written.toList ∧
      others.after (evaluateTokens tokens others) = others.setAll written.toList := by
  intro tokens others
  have same : ∀ name, Reads tokens name → Bindings.initial.get? name = others.get? name := by
    rintro name ⟨before, p, after, split, uncalled⟩
    match before with
    | [] =>
      cases split
      exact absurd rfl (uncalled _ rfl)
    | [_, _] =>
      cases split
      rfl
    | [_] | [_, _, _] | [_, _, _, _] => cases split
    | _ :: _ :: _ :: _ :: _ :: before => cases before <;> cases split
  obtain ⟨answers, ⟨written, target, first, second⟩, -, -⟩ := evaluateTokens_of_reads same
  refine ⟨answers, written, ?_, first, second⟩
  intro name value writes
  exact (Option.some.inj (target name value writes)).symm

end Calculator
