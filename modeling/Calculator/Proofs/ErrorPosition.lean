import Calculator.CommandLine.Caret
import Calculator.Proofs.Correspondence
import Calculator.Proofs.Cut

/-!
The positions of errors.

An error stands between two parts of the text (`EvalError.StandsBetween`). A text that cannot be
scanned fails behind the pieces that it could be cut into; what the assembly refuses is one of the
tokens, since it invents no positions (`exists_lexeme_of_evaluateTokens`, the correspondence of
the assembly with itself). So the position never lies within a character, and the caret is below
the first character of what is wrong (`evaluate_pointer`).
-/

namespace Calculator

open Token CommandLine

variable {text : String} {bindings : Bindings} {position : Nat} {tokens : List Lexeme}

/-! ### Where tokens stand -/

/-- A text goes on with a token: with the slice that makes it, or, at the end of input, not at
all. -/
inductive Token.Heads : Token → List Char → Prop where
  | slice {slice rest : List Char} {token : Token} :
      Slice slice rest token → Heads token (slice ++ rest)
  | endOfInput : Heads .endOfInput []

/-- Each token stands where its slice begins. -/
theorem Token.Sliced.heads {chars : List Char} (sliced : Sliced position chars tokens) :
    ∀ lexeme ∈ tokens, ∃ before after, chars = before ++ after ∧
      lexeme.position = position + before.length ∧ lexeme.token.Heads after := by
  induction sliced with
  | done => exact List.forall_mem_singleton.mpr ⟨[], [], rfl, rfl, .endOfInput⟩
  | @blank position c rest tokens _ _ ih =>
    intro lexeme mem
    obtain ⟨before, after, rfl, place, heads⟩ := ih lexeme mem
    refine ⟨c :: before, after, rfl, ?_, heads⟩
    rw [place, List.length_cons, Nat.add_right_comm, Nat.add_assoc]
  | @slice position slice rest token tokens cut _ ih =>
    refine List.forall_mem_cons.mpr ⟨⟨[], _, rfl, rfl, .slice cut⟩, fun lexeme mem => ?_⟩
    obtain ⟨before, after, rfl, place, heads⟩ := ih lexeme mem
    refine ⟨slice ++ before, after, (List.append_assoc _ _ _).symm, ?_, heads⟩
    rw [place, List.length_append, Nat.add_assoc]

/-! ### Where errors stand -/

/-- An error is about the place between two parts of a text. Scanning fails behind the pieces it has
gone through, before characters that none begins; an expression fails before one of its
tokens. -/
inductive EvalError.StandsBetween (text : String) :
    EvalError → List Char → List Char → Prop where
  | obstacle {pieces : List Piece} {c : Char} {rest : List Char} {position : Nat} :
      Cut pieces (c :: rest) → Stuck (c :: rest) →
      StandsBetween text (.scan ⟨Token.obstacle c rest, position⟩) (written pieces) (c :: rest)
  | token {e : ParseError} {tokens : List Lexeme} {token : Token} {before after : List Char} :
      Calculator.scan text = .ok tokens → ⟨token, e.position⟩ ∈ tokens → token.Heads after →
      StandsBetween text (.parse e) before after

/-- The assembly blames one of its tokens. -/
theorem exists_lexeme_of_evaluateTokens {endsAt : Nat} {e : ParseError}
    (closed : Closed endsAt tokens) (fails : evaluateTokens tokens bindings = .error e) :
    ∃ lexeme ∈ tokens, lexeme.position = e.position := by
  have sides := Correspondence.matches_evaluateTokens_id
    (fun position => ∃ lexeme ∈ tokens, lexeme.position = position)
    (fun lexeme mem => ⟨lexeme, mem, rfl⟩) (fun _ _ _ _ => Eq.refl (bindings.get? _))
    (.inr ⟨_, closed.endOfInput_mem, rfl⟩)
  rw [fails] at sides
  cases sides with
  | error errors => exact errors.2

/-- Every error stands at a place of the text, and its position counts the bytes before it. -/
theorem exists_between_of_evaluate {e : EvalError} (fails : evaluate text bindings = .error e) :
    ∃ before after, text.toList = before ++ after ∧ e.position = String.utf8Len before ∧
      e.StandsBetween text before after := by
  cases scanned : scan text with
  | error scanError =>
    rw [evaluate, scanned] at fails
    cases fails
    obtain ⟨pieces, rest, split, cut, stuck⟩ := exists_cut text.toList
    cases rest with
    | nil =>
      rw [List.append_nil] at split
      cases scanned.symm.trans (scan_of_cut split cut)
    | cons c rest =>
      cases scanned.symm.trans (scan_of_stuck split cut stuck)
      exact ⟨_, _, split, String.utf8ByteSize_ofList _, .obstacle cut stuck⟩
  | ok tokens =>
    rw [evaluate_of_scan scanned] at fails
    obtain ⟨e, failed, rfl⟩ := mapError_eq_error.mp fails
    obtain ⟨⟨token, position⟩, mem, rfl⟩ :=
      exists_lexeme_of_evaluateTokens (closed_of_scan scanned) failed
    obtain ⟨before, after, split, place, heads⟩ := (sliced_of_scan scanned).heads _ mem
    refine ⟨before, after, split, ?_, .token scanned mem heads⟩
    -- Scanning counts characters, which are of one byte each in a text that can be scanned.
    have single : ∀ c ∈ before, inText c := by
      intro c mem
      exact (sliced_of_scan scanned).inText c (split ▸ List.mem_append_left _ mem)
    rw [utf8Len_of_inText single]
    exact place.trans (Nat.zero_add _)

/-! ### Carets -/

theorem charactersIn?_append (before after : List Char) :
    charactersIn? (before ++ after) (String.utf8Len before) = some before.length := by
  induction before with
  | nil => simp [charactersIn?]
  | cons c before ih =>
    have wide := c.utf8Size_pos
    rw [List.cons_append, String.utf8Len_cons, charactersIn?,
      if_neg (Nat.not_lt.mpr (Nat.le_add_left _ _)), Nat.add_sub_cancel, ih]
    · rfl
    · intro zero
      omega

/-- The caret stands below the place that a position is about. -/
theorem pointer_append (before after : String) :
    pointer (before ++ after) before.utf8ByteSize =
      "  " ++ (before ++ after) ++ "\n" ++
        String.ofList (List.replicate (2 + before.length) ' ') ++ "^" := by
  have columns : column (before ++ after) before.utf8ByteSize = before.length := by
    rw [column, String.toList_append, ← String.utf8Len_toList, charactersIn?_append]
    exact String.length_toList
  have margin : "\n  " = "\n" ++ String.ofList (List.replicate 2 ' ') := rfl
  rw [pointer, columns, margin, List.replicate_add, String.ofList_append]
  simp only [String.append_assoc]

/-- An error is about a place of its text that is no further than the end and not within a
character. The caret has as many characters before it as the place, besides the margin. -/
theorem evaluate_pointer {e : EvalError} (fails : evaluate text bindings = .error e) :
    ∃ before after : String, text = before ++ after ∧ e.position = before.utf8ByteSize ∧
      e.StandsBetween text before.toList after.toList ∧
      e.position ≤ text.utf8ByteSize ∧ String.Pos.Raw.IsValid text ⟨e.position⟩ ∧
      charactersIn? text.toList e.position = some before.length ∧
      pointer text e.position =
        "  " ++ text ++ "\n" ++ String.ofList (List.replicate (2 + before.length) ' ') ++ "^" := by
  obtain ⟨before, after, split, place, between⟩ := exists_between_of_evaluate fails
  obtain rfl : text = String.ofList before ++ String.ofList after := by
    rw [← String.ofList_append, ← split, String.ofList_toList]
  rw [← String.utf8ByteSize_ofList] at place
  refine ⟨_, _, rfl, place, ?_, ?_, ?_, ?_, ?_⟩
  · rwa [String.toList_ofList, String.toList_ofList]
  · rw [place, String.utf8ByteSize_append]
    exact Nat.le_add_right _ _
  · rw [place]
    exact String.Pos.Raw.isValid_iff_exists_append.mpr ⟨_, _, rfl, rfl⟩
  · rw [place, String.toList_append, String.utf8ByteSize_ofList, String.toList_ofList,
      charactersIn?_append, String.length_ofList]
  · rw [place, pointer_append]

/-- A letter that no token begins with, and a parenthesis that is left open. -/
theorem evaluate_pointer_letter :
    evaluate "e+π" .initial = .error (.scan ⟨.invalidCharacter 'π', 2⟩) ∧
    pointer "e+π" 2 = "  e+π\n    ^" ∧
    evaluate "e+(pi" .initial = .error (.parse ⟨.unclosedParen, 2⟩) ∧
    pointer "e+(pi" 2 = "  e+(pi\n    ^" := by
  have failed : evaluate "e+π" .initial = .error (.scan ⟨.invalidCharacter 'π', 2⟩) := by
    have refused : scan "e+π" = .error ⟨.invalidCharacter 'π', 2⟩ := by
      simp [scan, scanFrom, isBlank, startsNumeral, ofSymbol?]
    rw [evaluate, refused]
    rfl
  have unclosed : evaluate "e+(pi" .initial = .error (.parse ⟨.unclosedParen, 2⟩) := by
    have scanned : scan "e+(pi" = .ok [⟨.identifier "e", 0⟩, ⟨.plus, 1⟩, ⟨.openParen, 2⟩,
        ⟨.identifier "pi", 3⟩, ⟨.endOfInput, 5⟩] := by
      simp [scan, scanFrom, isBlank, startsNumeral, ofSymbol?]
    rw [evaluate_of_scan scanned]
    rfl
  obtain ⟨before, -, -, -, -, -, -, columns, pointed⟩ := evaluate_pointer failed
  obtain ⟨before', -, -, -, -, -, -, columns', pointed'⟩ := evaluate_pointer unclosed
  have two : before.length = 2 := Option.some.inj (columns.symm.trans rfl)
  have two' : before'.length = 2 := Option.some.inj (columns'.symm.trans rfl)
  rw [two] at pointed
  rw [two'] at pointed'
  exact ⟨failed, pointed, unclosed, pointed'⟩

end Calculator
