import Calculator.Proofs.Reads

/-!
Statements that do not depend on each other.

A statement reads no names but those it mentions (`Reads.mentions`), so bindings that agree on them
give it the same answer (`evaluateTokens_congr`). And it writes at most the name it begins with. So
if that name is not mentioned in the next statement, and the next one likewise spares the first,
the two can be run in either order: each finds what it reads as it was, and their writes commute
(`session_swap`).
-/

namespace Calculator

open Assembly

variable {tokens others : List Lexeme} {name : String} {bindings bindings' : Bindings}

/-! ### What is read -/

/-- A name occurs among the tokens. -/
def Mentions (tokens : List Lexeme) (name : String) : Prop :=
  ∃ lexeme ∈ tokens, lexeme.token = .identifier name

theorem Reads.mentions (reads : Reads tokens name) : Mentions tokens name := by
  obtain ⟨before, p, after, split, -⟩ := reads
  have mem : ⟨.identifier name, p⟩ ∈ afterTarget tokens :=
    split ▸ List.mem_append_right before List.mem_cons_self
  refine ⟨⟨.identifier name, p⟩, ?_, rfl⟩
  unfold afterTarget at mem
  split at mem
  · exact List.mem_cons_of_mem _ (List.mem_cons_of_mem _ mem)
  · exact mem

/-- Tokens have the same answer in bindings that agree on the names among them. -/
theorem evaluateTokens_congr
    (same : ∀ name, Mentions tokens name → bindings.get? name = bindings'.get? name) :
    evaluateTokens tokens bindings = evaluateTokens tokens bindings' :=
  evaluateTokens_eq_of_reads fun name reads => same name reads.mentions

/-! ### What is written -/

/-- The name that the tokens assign, if they do, does not occur among the others. -/
def Spares (tokens others : List Lexeme) : Prop :=
  ∀ name p q rest, tokens = ⟨.identifier name, p⟩ :: ⟨.assign, q⟩ :: rest → ¬ Mentions others name

/-- What is mentioned elsewhere is not written. -/
theorem get?_after (spares : Spares tokens others) (mentioned : Mentions others name) :
    (bindings.after (evaluateTokens tokens bindings)).get? name = bindings.get? name := by
  cases evaluated : evaluateTokens tokens bindings with
  | error e => rfl
  | ok tree =>
    cases tree with
    | assignment target right value p =>
      obtain ⟨q, rest, begins, -⟩ := exists_begins_of_evaluateTokens evaluated
      refine (bindings.get?_set target name value).trans (if_neg ?_)
      rintro rfl
      exact spares name p q rest begins mentioned
    | _ => rfl

/-- What two assignments to different names write does not depend on their order. -/
theorem after_comm {ε ε' : Type} {first : Except ε Tree} {second : Except ε' Tree}
    (other : ∀ name right value p name' right' value' p',
      first = .ok (.assignment name right value p) →
      second = .ok (.assignment name' right' value' p') → name ≠ name') :
    (bindings.after first).after second = (bindings.after second).after first := by
  cases writes : assigns first with
  | false => rw [after_of_not_assigns writes, after_of_not_assigns writes]
  | true =>
    cases writes' : assigns second with
    | false => rw [after_of_not_assigns writes', after_of_not_assigns writes']
    | true =>
      obtain ⟨name, right, value, p, rfl⟩ := exists_of_assigns writes
      obtain ⟨name', right', value', p', rfl⟩ := exists_of_assigns writes'
      exact bindings.set_comm (other _ _ _ _ _ _ _ _ rfl rfl) value value'

/-! ### Two statements -/

section Texts

variable {first second : String}

/-- A statement that is spared has the same answer before and after the one that spares it. -/
theorem evaluate_execute (scanned : scan first = .ok tokens) (scanned' : scan second = .ok others)
    (spares : Spares tokens others) (bindings : Bindings) :
    evaluate second (execute first bindings).2 = evaluate second bindings := by
  have same : evaluateTokens others (bindings.after (evaluateTokens tokens bindings)) =
      evaluateTokens others bindings :=
    evaluateTokens_congr fun _ => get?_after spares
  rw [execute, evaluate_of_scan scanned, after_mapError, evaluate_of_scan scanned', same,
    ← evaluate_of_scan scanned']

/-- Statements that spare each other leave the same bindings in either order. -/
theorem execute_comm (scanned : scan first = .ok tokens) (scanned' : scan second = .ok others)
    (spares : Spares tokens others) (spares' : Spares others tokens) (bindings : Bindings) :
    (execute second (execute first bindings).2).2 =
      (execute first (execute second bindings).2).2 := by
  have writes (text : String) (bindings : Bindings) :
      (execute text bindings).2 = bindings.after (evaluate text bindings) := rfl
  rw [writes second, evaluate_execute scanned scanned' spares, writes first bindings,
    writes first (execute second bindings).2, evaluate_execute scanned' scanned spares',
    writes second bindings]
  -- Were both to assign one name, the second would mention what the first assigns.
  refine after_comm ?_
  rw [evaluate_of_scan scanned, evaluate_of_scan scanned']
  rintro name right value p _ right' value' p' evaluated evaluated' rfl
  obtain ⟨q, rest, begins, -⟩ := exists_begins_of_evaluateTokens (mapError_eq_ok.mp evaluated)
  obtain ⟨q', rest', begins', -⟩ := exists_begins_of_evaluateTokens (mapError_eq_ok.mp evaluated')
  refine spares name p q rest begins ⟨⟨.identifier name, p'⟩, ?_, rfl⟩
  rw [begins']
  exact List.mem_cons_self

theorem session_append (bindings : Bindings) (texts texts' : List String) :
    session bindings (texts ++ texts') =
      ((session bindings texts).1 ++ (session (session bindings texts).2 texts').1,
        (session (session bindings texts).2 texts').2) := by
  induction texts generalizing bindings with
  | nil => rfl
  | cons text texts ih => rw [List.cons_append, session_cons, session_cons, ih]; rfl

/-- Of two statements that follow each other in a session, neither may mention the name that the
other one assigns. Then each has the same answer when they change places, and the bindings after
the two are the same; so is the rest of the session. -/
theorem session_swap (scanned : scan first = .ok tokens) (scanned' : scan second = .ok others)
    (spares : Spares tokens others) (spares' : Spares others tokens) (bindings : Bindings)
    (before after : List String) :
    let now := (session bindings before).2
    let next := (execute second (execute first now).2).2
    session bindings (before ++ first :: second :: after) =
      ((session bindings before).1 ++ evaluate first now :: evaluate second now ::
        (session next after).1, (session next after).2) ∧
    (execute first (execute second now).2).2 = next ∧
    session bindings (before ++ second :: first :: after) =
      ((session bindings before).1 ++ evaluate second now :: evaluate first now ::
        (session next after).1, (session next after).2) := by
  intro now next
  have same : (execute first (execute second now).2).2 = next :=
    (execute_comm scanned scanned' spares spares' now).symm
  refine ⟨?_, same, ?_⟩
  · rw [session_append, session_cons, session_cons, evaluate_execute scanned scanned' spares]
  · rw [session_append, session_cons, session_cons, evaluate_execute scanned' scanned spares', same]

/-- Two assignments, and a difference that reads what both have written. -/
theorem session_swap_difference :
    ∃ a b difference left,
      session .initial ["a=e", "b=pi", "a-b"] = ([.ok a, .ok b, .ok difference], left) ∧
      session .initial ["b=pi", "a=e", "a-b"] = ([.ok b, .ok a, .ok difference], left) := by
  have scanned : scan "a=e" =
      .ok [⟨.identifier "a", 0⟩, ⟨.assign, 1⟩, ⟨.identifier "e", 2⟩, ⟨.endOfInput, 3⟩] := by
    simp [scan, Token.scanFrom, Token.isBlank, Token.startsNumeral, Token.ofSymbol?]
  have scanned' : scan "b=pi" =
      .ok [⟨.identifier "b", 0⟩, ⟨.assign, 1⟩, ⟨.identifier "pi", 2⟩, ⟨.endOfInput, 4⟩] := by
    simp [scan, Token.scanFrom, Token.isBlank, Token.startsNumeral, Token.ofSymbol?]
  have reads : scan "a-b" =
      .ok [⟨.identifier "a", 0⟩, ⟨.minus, 1⟩, ⟨.identifier "b", 2⟩, ⟨.endOfInput, 3⟩] := by
    simp [scan, Token.scanFrom, Token.isBlank, Token.startsNumeral, Token.ofSymbol?]
  have spares : Spares
      [⟨.identifier "a", 0⟩, ⟨.assign, 1⟩, ⟨.identifier "e", 2⟩, ⟨.endOfInput, 3⟩]
      [⟨.identifier "b", 0⟩, ⟨.assign, 1⟩, ⟨.identifier "pi", 2⟩, ⟨.endOfInput, 4⟩] := by
    rintro _ _ _ _ ⟨⟩
    simp [Mentions]
  have spares' : Spares
      [⟨.identifier "b", 0⟩, ⟨.assign, 1⟩, ⟨.identifier "pi", 2⟩, ⟨.endOfInput, 4⟩]
      [⟨.identifier "a", 0⟩, ⟨.assign, 1⟩, ⟨.identifier "e", 2⟩, ⟨.endOfInput, 3⟩] := by
    rintro _ _ _ _ ⟨⟩
    simp [Mentions]
  have assigned : ∃ a, evaluate "a=e" .initial = .ok a := by
    rw [evaluate_of_scan scanned]
    exact ⟨_, rfl⟩
  have assigned' : ∃ b, evaluate "b=pi" .initial = .ok b := by
    rw [evaluate_of_scan scanned']
    exact ⟨_, rfl⟩
  let next := (execute "b=pi" (execute "a=e" .initial).2).2
  have read : ∃ difference, evaluate "a-b" next = .ok difference := by
    simp only [next, execute, evaluate_of_scan scanned, evaluate_of_scan scanned',
      evaluate_of_scan reads]
    exact ⟨_, rfl⟩
  obtain ⟨a, assigned⟩ := assigned
  obtain ⟨b, assigned'⟩ := assigned'
  obtain ⟨difference, read⟩ := read
  obtain ⟨answers, -, swapped⟩ := session_swap scanned scanned' spares spares' .initial [] ["a-b"]
  refine ⟨a, b, difference, (execute "a-b" next).2, answers.trans ?_, swapped.trans ?_⟩
  · rw [← assigned, ← assigned', ← read]
    rfl
  · rw [← assigned, ← assigned', ← read]
    rfl

end Texts

end Calculator
