import Calculator.CommandLine.Setting
import Calculator.Plot
import Calculator.Proofs.Grid
import Calculator.Proofs.Scan
import Calculator.Proofs.Session
import Calculator.Proofs.WhiteSpace

/-!
The equals signs of the texts that are accepted.

An expression has none, so a text with a tree has one exactly if the tree is an assignment
(`count_of_evaluate`), and there it stands after the name (`split_of_evaluate`). Settings
and functions to plot have one more, which is cut off before the rest is evaluated
(`readSetting_eq_ok`, `count_of_plotBody?`): the rest is a statement, so it may be an
assignment again.
-/

namespace Calculator

open Assembly CommandLine

variable {α : Type} {b : Builder α} {value : α} {endsAt : Nat} {tokens : List Lexeme}
  {bindings : Bindings} {tree : Tree}

/-! ### Tokens -/

theorem Derives.countP_assign {level : Level} {f : Formula} {used : List Lexeme}
    (derives : Derives level f used) :
    used.countP (fun lexeme => lexeme.token = .assign) = 0 := by
  rw [List.countP_eq_zero]
  intro lexeme mem assigns
  have inside := derives.inExpression lexeme mem
  rw [of_decide_eq_true assigns] at inside
  cases inside

theorem countP_assign_of_assembleAll (closed : Closed endsAt tokens)
    (h : assembleAll b tokens = .ok value) :
    tokens.countP (fun lexeme => lexeme.token = .assign) = 0 := by
  obtain ⟨f, derives, -⟩ := exists_derives_of_assembleAll h
  obtain ⟨rest, split, ended⟩ := exists_eq_beforeEnd_append tokens
  rw [split, List.countP_append, derives.countP_assign, Nat.zero_add]
  cases rest with
  | nil => rfl
  | cons next rest =>
    rw [split] at closed
    cases closed.of_append with
    | last => rfl
    | cons plain _ => exact absurd (ended next rfl) plain.2

/-- Tokens that have a tree hold an equals sign if the tree is an assignment, and no other. -/
theorem countP_assign_of_evaluateTokens (closed : Closed endsAt tokens)
    (h : evaluateTokens tokens bindings = .ok tree) :
    tokens.countP (fun lexeme => lexeme.token = .assign) =
      if tree.isAssignment then 1 else 0 := by
  by_cases begins : BeginsAssignment tokens
  · obtain ⟨name, p, q, rest, rfl⟩ := begins
    obtain ⟨right, assembled, ⟨⟩⟩ := bind_eq_ok.mp h
    have later := (closed.tail (by intro ends; cases ends)).tail (by intro ends; cases ends)
    rw [List.countP_cons, List.countP_cons, countP_assign_of_assembleAll later assembled]
    rfl
  · rw [evaluateTokens_eq_assembleAll begins] at h
    rw [countP_assign_of_assembleAll closed h, isAssignment_of_assembleAll h]
    rfl

/-! ### Texts -/

section Texts

variable {text name : String} {right : Tree} {result : Float} {p : Nat}

theorem count_of_evaluate (h : evaluate text bindings = .ok tree) :
    text.toList.count '=' = if tree.isAssignment then 1 else 0 := by
  obtain ⟨tokens, scanned, evaluated⟩ := evaluate_eq_ok.mp h
  rw [(sliced_of_scan scanned).count_assign]
  exact countP_assign_of_evaluateTokens (closed_of_scan scanned) evaluated

/-- An assignment is written as a name and an equals sign, and behind them stands what it
assigns. -/
theorem exists_rightSide_of_evaluate
    (h : evaluate text bindings = .ok (.assignment name right result p)) :
    ∃ before between after tokens,
      text.toList = before ++ name.toList ++ between ++ '=' :: after ∧
      (∀ c ∈ before, Token.isBlank c) ∧ (∀ c ∈ between, Token.isBlank c) ∧
      (name.toList ≠ [] ∧ ∀ c ∈ name.toList, c.isAlpha) ∧
      Token.Sliced (before ++ name.toList ++ between ++ ['=']).length after tokens ∧
      evaluateTokens tokens bindings = .ok right ∧ result = right.value := by
  obtain ⟨tokens, scanned, evaluated⟩ := evaluate_eq_ok.mp h
  obtain ⟨q, rest, rfl, found, value_eq⟩ := exists_begins_of_evaluateTokens evaluated
  obtain ⟨before, letters, later, split, before_blank, rfl, made, sliced⟩ :=
    (sliced_of_scan scanned).uncons (by intro ends; cases ends)
  obtain ⟨between, sign, after, rfl, between_blank, rfl, signed, sliced⟩ :=
    sliced.uncons (by intro ends; cases ends)
  obtain ⟨rfl, letters⟩ := made.eq_name
  obtain rfl := signed.eq_assign
  refine ⟨before, between, after, rest, by simpa using split, before_blank, between_blank,
    ⟨made.ne_nil, letters⟩, ?_, found, value_eq⟩
  simpa [Nat.add_assoc] using sliced

/-- The equals sign of an assignment stands after the name that the text begins with. -/
theorem split_of_evaluate (h : evaluate text bindings = .ok (.assignment name right result p)) :
    ∃ before between after, text.toList = before ++ name.toList ++ between ++ '=' :: after ∧
      (∀ c ∈ before, Token.isBlank c) ∧ ∀ c ∈ between, Token.isBlank c := by
  obtain ⟨before, between, after, -, split, blank, blank', -⟩ := exists_rightSide_of_evaluate h
  exact ⟨before, between, after, split, blank, blank'⟩

end Texts

/-! ### Settings and plots -/

section Settings

variable {text name function body : String} {value : Float} {grid : Grid}
  {points : List (Float × Float)}

/-- Cutting a text at its first equals sign. -/
theorem span_assign {left right : List Char} (first : '=' ∉ left) :
    (left ++ '=' :: right).span (· ≠ '=') = (left, '=' :: right) := by
  have before : ∀ c ∈ left, decide (c ≠ '=') = true := by
    intro c mem
    refine decide_eq_true ?_
    rintro rfl
    exact first mem
  rw [List.span_eq_takeWhile_dropWhile, List.takeWhile_append_of_pos before,
    List.dropWhile_append_of_pos before]
  simp

theorem exists_span_assign {text left right : List Char} {sign : Char}
    (cut : text.span (· ≠ '=') = (left, sign :: right)) :
    text = left ++ '=' :: right ∧ '=' ∉ left := by
  rw [List.span_eq_takeWhile_dropWhile] at cut
  obtain ⟨rfl, after⟩ := Prod.mk.inj cut
  have stopped := List.head?_dropWhile_not (· ≠ '=') text
  rw [after] at stopped
  obtain rfl : sign = '=' := by simpa using stopped
  refine ⟨?_, ?_⟩
  · rw [← after, List.takeWhile_append_dropWhile]
  · intro mem
    simpa using List.all_eq_true.mp List.all_takeWhile _ mem

/-- A setting is cut at its first equals sign. What stands before it is the name, and what
stands after it is a statement. -/
theorem readSetting_eq_ok :
    readSetting text = .ok (name, value) ↔
      ∃ left right tree, text.toList = left ++ '=' :: right ∧ '=' ∉ left ∧
        trim left = name.toList ∧ (name.toList ≠ [] ∧ name.toList.all Char.isAlpha) ∧
        evaluate (String.ofList right) .initial = .ok tree ∧ tree.value = value := by
  constructor
  · intro h
    unfold readSetting at h
    split at h
    · cases h
    · rename_i left sign right cut
      obtain ⟨split_eq, first⟩ := exists_span_assign cut
      dsimp only at h
      split at h
      · rename_i letters
        cases evaluated : evaluate (String.ofList right) .initial with
        | error e =>
          rw [evaluated] at h
          cases h
        | ok tree =>
          rw [evaluated] at h
          cases h
          refine ⟨left, right, tree, split_eq, first, ?_, ?_, evaluated, rfl⟩
          · rw [String.toList_ofList]
          · rwa [String.toList_ofList]
      · cases h
  · rintro ⟨left, right, tree, split_eq, first, trimmed, letters, evaluated, rfl⟩
    unfold readSetting
    rw [split_eq, span_assign first]
    simp only [trimmed, if_pos letters, evaluated, String.ofList_toList]

/-- A function to plot has one equals sign more than its right-hand side. -/
theorem count_of_plotBody? (h : plotBody? function = some body) :
    function.toList.count '=' = 1 + body.toList.count '=' := by
  have counted := count_trim isWhiteSpace_assign function.toList
  unfold plotBody? at h
  split at h
  · rename_i rest trimmed
    split at h
    · rename_i right start
      cases h
      have later := count_trimStart isWhiteSpace_assign rest
      rw [start] at later
      rw [String.toList_ofList, count_trim isWhiteSpace_assign, ← counted, trimmed,
        List.count_cons_of_ne (by decide), ← later, List.count_cons_self, Nat.add_comm]
    · cases h
  · cases h

/-- What is sampled is evaluated at the first point. -/
theorem evaluate_of_sample (h : (sample body grid bindings).1 = .ok points) :
    ∃ tree, evaluate body (bindings.set sampleVariable (grid.point 0)) = .ok tree := by
  unfold sample at h
  split at h
  · cases h
  · rename_i tokens scanned
    obtain ⟨budget, some_index⟩ : ∃ budget, Grid.indexCount = budget + 1 := ⟨4294967295, rfl⟩
    rw [some_index, sampleFrom] at h
    simp only [grid.covers_point_zero, if_true] at h
    split at h
    · rename_i tree evaluated
      exact ⟨tree, evaluate_eq_ok.mpr ⟨tokens, scanned, evaluated⟩⟩
    · cases h

/-- A text with a tree has an equals sign only if the tree is an assignment, and then a single
one, after the name that the text begins with. A setting and a function to plot have one that
is cut off, and another exactly if what is left is an assignment. -/
theorem equalsSigns_spec (text : String) (bindings : Bindings) (grid : Grid) :
    (∀ tree, evaluate text bindings = .ok tree →
      text.toList.count '=' = (if tree.isAssignment then 1 else 0) ∧
      ∀ name right value p, tree = .assignment name right value p →
        ∃ before between after, text.toList = before ++ name.toList ++ between ++ '=' :: after ∧
          (∀ c ∈ before, Token.isBlank c) ∧ ∀ c ∈ between, Token.isBlank c) ∧
    (∀ name value, readSetting text = .ok (name, value) →
      ∃ left right tree, text.toList = left ++ '=' :: right ∧ '=' ∉ left ∧
        trim left = name.toList ∧ evaluate (String.ofList right) .initial = .ok tree ∧
        tree.value = value ∧
        text.toList.count '=' = 1 + if tree.isAssignment then 1 else 0) ∧
    ∀ body points, plotBody? text = some body → (sample body grid bindings).1 = .ok points →
      ∃ tree, evaluate body (bindings.set sampleVariable (grid.point 0)) = .ok tree ∧
        text.toList.count '=' = 1 + if tree.isAssignment then 1 else 0 := by
  refine ⟨?_, ?_, ?_⟩
  · intro tree evaluated
    refine ⟨count_of_evaluate evaluated, ?_⟩
    rintro name right value p rfl
    exact split_of_evaluate evaluated
  · intro name value accepted
    obtain ⟨left, right, tree, split, first, trimmed, -, evaluated, value_eq⟩ :=
      readSetting_eq_ok.mp accepted
    refine ⟨left, right, tree, split, first, trimmed, evaluated, value_eq, ?_⟩
    have counted := count_of_evaluate evaluated
    rw [String.toList_ofList] at counted
    rw [split, List.count_append, List.count_eq_zero.mpr first, List.count_cons_self, counted]
    omega
  · intro body points taken sampled
    obtain ⟨tree, evaluated⟩ := evaluate_of_sample sampled
    exact ⟨tree, evaluated, by rw [count_of_plotBody? taken, count_of_evaluate evaluated]⟩

/-- The value of a setting may be an assignment. -/
theorem readSetting_assignment :
    ∃ value, readSetting "r=a=e" = .ok ("r", value) ∧ "r=a=e".toList.count '=' = 2 := by
  have scanned : scan "a=e" =
      .ok [⟨.identifier "a", 0⟩, ⟨.assign, 1⟩, ⟨.identifier "e", 2⟩, ⟨.endOfInput, 3⟩] := by
    simp [scan, Token.scanFrom, Token.isBlank, Token.startsNumeral, Token.ofSymbol?]
  have evaluated : ∃ tree, evaluate "a=e" .initial = .ok tree := by
    rw [evaluate, scanned]
    exact ⟨_, rfl⟩
  obtain ⟨tree, evaluated⟩ := evaluated
  exact ⟨tree.value, readSetting_eq_ok.mpr ⟨['r'], ['a', '=', 'e'], tree, rfl, by decide, rfl,
    by decide, evaluated, rfl⟩, rfl⟩

end Settings

end Calculator
