import Calculator.Proofs.Correspondence

/-!
What the positions of tokens decide.

Positions are carried along and never looked at. A statement can therefore be read with the indices
of its tokens in place of their positions, and whatever it comes to, a tree or an error, the real
positions can be put in afterwards (`answers_evaluateTokens`). So the same tokens at other places
get the same answer with other positions in it, and assign the same (`evaluateTokens_alike`).
-/

namespace Calculator

variable {tokens tokens' : List Lexeme} {bindings : Bindings}

/-- The position of the `i`-th token. -/
def placeIn (tokens : List Lexeme) (i : Nat) : Nat :=
  (tokens[i]?.map Lexeme.position).getD 0

/-- What two lists of the same tokens come to: trees or errors that differ only in their positions,
each of which is that of the token with the same index in its list. If the tokens ran out without
an end of input, there is no token to blame. -/
inductive AnsweredAlike (tokens tokens' : List Lexeme) :
    Except ParseError Tree → Except ParseError Tree → Prop where
  | tree {indexed : Tree} : (∀ row ∈ indexed.rows 0, row.position < tokens.length) →
      AnsweredAlike tokens tokens' (.ok (indexed.relocate (placeIn tokens)))
        (.ok (indexed.relocate (placeIn tokens')))
  | error {cause : ParseError.Cause} {i : Nat} : i < tokens.length →
      AnsweredAlike tokens tokens' (.error ⟨cause, placeIn tokens i⟩)
        (.error ⟨cause, placeIn tokens' i⟩)
  | ranOut : (∀ lexeme ∈ tokens, lexeme.token ≠ .endOfInput) →
      AnsweredAlike tokens tokens' (.error ⟨.unexpectedEnd, 0⟩) (.error ⟨.unexpectedEnd, 0⟩)

/-! ### Indices -/

/-- Tokens at their indices. -/
def atIndices (tokens : List Token) : List Lexeme :=
  tokens.mapIdx fun i token => ⟨token, i⟩

theorem position_of_mem_atIndices {words : List Token} :
    ∀ lexeme ∈ atIndices words, lexeme.position < words.length := by
  intro lexeme mem
  obtain ⟨i, inside, rfl⟩ := List.mem_mapIdx.mp mem
  exact inside

theorem map_relocate_atIndices (tokens : List Lexeme) :
    (atIndices (tokens.map Lexeme.token)).map (Lexeme.relocate (placeIn tokens)) = tokens := by
  refine List.ext_getElem? fun i => ?_
  cases found : tokens[i]? <;>
    simp [atIndices, List.getElem?_mapIdx, found, Lexeme.relocate, placeIn]

/-! ### Answers -/

theorem record_relocate (move : Nat → Nat) (tree : Tree) :
    bindings.record (tree.relocate move) = bindings.record tree := by
  cases tree <;> rfl

theorem AnsweredAlike.after_eq {answer answer' : Except ParseError Tree}
    (alike : AnsweredAlike tokens tokens' answer answer') :
    bindings.after answer = bindings.after answer' := by
  cases alike with
  | tree => exact (record_relocate _ _).trans (record_relocate _ _).symm
  | error | ranOut => rfl

theorem answers_evaluateTokens (same : tokens.map Lexeme.token = tokens'.map Lexeme.token)
    (bindings : Bindings) :
    AnsweredAlike tokens tokens' (evaluateTokens tokens bindings)
      (evaluateTokens tokens' bindings) := by
  have sides := Correspondence.failures_evaluateTokens (placeIn tokens) (placeIn tokens')
    (· < (tokens.map Lexeme.token).length) position_of_mem_atIndices
    fun _ _ name _ => Eq.refl (bindings.get? name)
  -- The two lists are the same tokens at their indices, moved to their places in the one list or
  -- in the other.
  have there := map_relocate_atIndices tokens'
  rw [← same] at there
  rw [map_relocate_atIndices, there, List.length_map] at sides
  generalize evaluateTokens tokens bindings = answer at sides ⊢
  generalize evaluateTokens tokens' bindings = answer' at sides ⊢
  cases sides with
  | ok related =>
    obtain ⟨source, inside, rfl, rfl⟩ := related
    exact .tree (inside 0)
  | @error e e' failures =>
    cases failures with
    | located errors =>
      obtain ⟨cause, position⟩ := e
      obtain ⟨cause', position'⟩ := e'
      obtain ⟨rfl, i, inside, rfl, rfl⟩ := errors
      exact .error inside
    | ranOut endless first second =>
      subst first second
      exact .ranOut endless

/-- The same tokens at other places get the same answer, each position in it being that of the
token with the same index, and the same bindings after it. So blanks between the tokens of a text
change nothing but positions. -/
theorem evaluateTokens_alike (same : tokens.map Lexeme.token = tokens'.map Lexeme.token)
    (bindings : Bindings) :
    AnsweredAlike tokens tokens' (evaluateTokens tokens bindings)
      (evaluateTokens tokens' bindings) ∧
    bindings.after (evaluateTokens tokens bindings) =
      bindings.after (evaluateTokens tokens' bindings) ∧
    ∀ text text', scan text = .ok tokens → scan text' = .ok tokens' →
      evaluate text bindings = (evaluateTokens tokens bindings).mapError .parse ∧
      evaluate text' bindings = (evaluateTokens tokens' bindings).mapError .parse ∧
      (execute text bindings).2 = (execute text' bindings).2 := by
  have alike := answers_evaluateTokens same bindings
  refine ⟨alike, alike.after_eq, fun text text' scanned scanned' => ?_⟩
  have here := evaluate_of_scan scanned bindings
  have there := evaluate_of_scan scanned' bindings
  refine ⟨here, there, ?_⟩
  simp only [execute, here, there, after_mapError, alike.after_eq]

/-- The parenthesis is the first token, wherever it stands. -/
theorem evaluateTokens_alike_unclosed :
    evaluate "(2" .initial = .error (.parse ⟨.unclosedParen, 0⟩) ∧
    evaluate " ( 2" .initial = .error (.parse ⟨.unclosedParen, 1⟩) ∧
    (execute "(2" .initial).2 = (execute " ( 2" .initial).2 := by
  have scanned : scan "(2" = .ok [⟨.openParen, 0⟩, ⟨.number 2.0, 1⟩, ⟨.endOfInput, 2⟩] := by
    decide +kernel
  have scanned' : scan " ( 2" = .ok [⟨.openParen, 1⟩, ⟨.number 2.0, 3⟩, ⟨.endOfInput, 4⟩] := by
    decide +kernel
  have same : [Lexeme.mk .openParen 0, ⟨.number 2.0, 1⟩, ⟨.endOfInput, 2⟩].map Lexeme.token =
      [Lexeme.mk .openParen 1, ⟨.number 2.0, 3⟩, ⟨.endOfInput, 4⟩].map Lexeme.token := rfl
  obtain ⟨-, -, respaced⟩ := evaluateTokens_alike same .initial
  obtain ⟨here, there, after⟩ := respaced _ _ scanned scanned'
  exact ⟨here, there, after⟩

end Calculator
