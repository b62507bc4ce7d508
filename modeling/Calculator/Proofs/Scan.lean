import Calculator.Proofs.Assembly
import Calculator.Token.Slices
import Mathlib.Data.String.Basic

/-!
What scanning gives.

A text that can be scanned is cut into slices (`sliced_of_scan`), and everything else is
read off the slices: the lexemes end with the end of input at the length of the text in
bytes (`closed_of_scan`), their positions ascend (`Sliced.ascending`), a lexeme that
comes first is preceded by blanks alone (`Sliced.uncons`), and a text has as many equals
signs as its lexemes (`Sliced.count_assign`).
-/

namespace Calculator

/-- The end of input closes the tokens. Before it there are neither blanks nor another end
of input. -/
inductive Closed (endsAt : Nat) : List Lexeme → Prop where
  | last : Closed endsAt [⟨.endOfInput, endsAt⟩]
  | cons {lexeme : Lexeme} {tokens : List Lexeme} :
      lexeme.token ≠ .blank ∧ lexeme.token ≠ .endOfInput → Closed endsAt tokens →
      Closed endsAt (lexeme :: tokens)

namespace Closed

variable {endsAt : Nat} {lexeme : Lexeme} {before after tokens : List Lexeme}

theorem tail (closed : Closed endsAt (lexeme :: tokens)) (plain : lexeme.token ≠ .endOfInput) :
    Closed endsAt tokens := by
  cases closed with
  | last => exact absurd rfl plain
  | cons _ closed => exact closed

theorem of_append (closed : Closed endsAt (before ++ lexeme :: after)) :
    Closed endsAt (lexeme :: after) := by
  induction before with
  | nil => exact closed
  | cons first before ih =>
    cases before with
    | nil =>
      cases closed with
      | cons _ closed => exact closed
    | cons second before =>
      cases closed with
      | cons _ closed => exact ih closed

theorem endOfInput_mem (closed : Closed endsAt tokens) : ⟨.endOfInput, endsAt⟩ ∈ tokens := by
  induction closed with
  | last => exact List.mem_singleton_self _
  | cons _ _ ih => exact List.mem_cons_of_mem _ ih

end Closed

namespace Token

variable {position : Nat} {c : Char} {run slice rest text : List Char} {token : Token}
  {tokens : List Lexeme}

/-! ### Slices -/

theorem ofNumeral_eq_ok_iff :
    ofNumeral run = .ok token ↔
      (run.count '.' ≤ 1 ∧ (Numeral.plain run).toFloat.isFinite) ∧
        token = .number (Numeral.plain run).toFloat := by
  simp only [ofNumeral]
  split
  · rename_i accepted
    rw [Except.ok.injEq, eq_comm]
    exact ⟨fun made => ⟨accepted, made⟩, And.right⟩
  · rename_i refused
    exact ⟨nofun, fun made => absurd made.1 refused⟩

theorem ofNumeral_eq_ok (h : ofNumeral run = .ok token) : ∃ value, token = .number value :=
  ⟨_, (ofNumeral_eq_ok_iff.mp h).2⟩

theorem ofNumeral_eq_error {cause : ScanError.Cause} (refused : ofNumeral run = .error cause) :
    cause = .malformedNumber (String.ofList run) := by
  simp only [ofNumeral] at refused
  split at refused
  · cases refused
  · cases refused
    rfl

theorem inNumeral_of_startsNumeral (h : startsNumeral c rest) : inNumeral c := by
  unfold startsNumeral at h
  unfold inNumeral
  rcases Bool.or_eq_true_iff.mp h with digit | point
  · simp [digit]
  · simp [(Bool.and_eq_true_iff.mp point).1]

theorem ofSymbol?_assign : ofSymbol? c = some .assign ↔ c = '=' := by
  constructor
  · intro made
    unfold ofSymbol? at made
    split at made <;> cases made
    rfl
  · rintro rfl
    rfl

theorem toNat_of_isAlpha (letter : c.isAlpha) :
    65 ≤ c.toNat ∧ c.toNat ≤ 90 ∨ 97 ≤ c.toNat ∧ c.toNat ≤ 122 := by
  have codes :
      (decide (65 ≤ c.val ∧ c.val ≤ 90) || decide (97 ≤ c.val) && decide (c.val ≤ 122)) = true :=
    letter
  simpa [UInt32.le_iff_toNat_le] using codes

/-- The code of the point comes just before those of the slash and the digits. -/
theorem toNat_of_inNumeral (numeral : inNumeral c) : 46 ≤ c.toNat ∧ c.toNat ≤ 57 := by
  simp only [inNumeral, Bool.or_eq_true, beq_iff_eq] at numeral
  rcases numeral with digit | rfl
  · simp [Char.isDigit, UInt32.le_iff_toNat_le] at digit
    omega
  · decide

/-- The characters that slices and blanks are made of. -/
def inText (c : Char) : Bool :=
  isBlank c || c.isAlpha || inNumeral c || (ofSymbol? c).isSome

/-- They take one byte each. -/
theorem utf8Size_of_inText (h : inText c) : c.utf8Size = 1 := by
  rw [Char.utf8Size_eq_one_iff, UInt32.le_iff_toNat_le]
  simp only [inText, Bool.or_eq_true] at h
  rcases h with ((blank | letter) | numeral) | symbol
  · simp only [isBlank, Bool.or_eq_true, beq_iff_eq] at blank
    rcases blank with (((rfl | rfl) | rfl) | rfl) | rfl <;> decide
  · have codes := toNat_of_isAlpha letter
    simp only [Char.toNat_val, UInt32.reduceToNat]
    omega
  · have codes := toNat_of_inNumeral numeral
    simp only [Char.toNat_val, UInt32.reduceToNat]
    omega
  · unfold ofSymbol? at symbol
    split at symbol <;> first | decide | cases symbol

theorem utf8Len_of_inText (h : ∀ c ∈ text, inText c) : String.utf8Len text = text.length := by
  induction text with
  | nil => rfl
  | cons c rest ih =>
    obtain ⟨single, later⟩ := List.forall_mem_cons.mp h
    rw [String.utf8Len_cons, ih later, utf8Size_of_inText single, List.length_cons]

namespace Slice

theorem ne_nil (h : Slice slice rest token) : slice ≠ [] := by
  cases h with
  | name nonempty => exact nonempty
  | numeral => exact List.cons_ne_nil _ _
  | symbol => exact List.cons_ne_nil _ _

/-- Slices make neither blanks nor the end of input. -/
theorem plain (h : Slice slice rest token) : token ≠ .blank ∧ token ≠ .endOfInput := by
  cases h with
  | name => exact ⟨nofun, nofun⟩
  | numeral _ _ _ made =>
    obtain ⟨value, rfl⟩ := ofNumeral_eq_ok made
    exact ⟨nofun, nofun⟩
  | symbol made =>
    unfold ofSymbol? at made
    split at made <;> cases made <;> exact ⟨nofun, nofun⟩

theorem inText (h : Slice slice rest token) : ∀ c ∈ slice, inText c := by
  cases h with
  | name _ letters =>
    intro c mem
    simp [Token.inText, letters c mem]
  | numeral begins run =>
    intro c mem
    have numeral : inNumeral c := by
      rcases List.mem_cons.mp mem with rfl | mem
      · exact inNumeral_of_startsNumeral begins
      · exact run c mem
    simp [Token.inText, numeral]
  | symbol made =>
    intro c mem
    cases List.mem_singleton.mp mem
    simp [Token.inText, made]

/-- A slice that makes a name is the name. -/
theorem eq_name {name : String} (h : Slice slice rest (.identifier name)) :
    slice = name.toList ∧ ∀ c ∈ slice, c.isAlpha := by
  generalize token_eq : Token.identifier name = token at h
  cases h with
  | name _ letters =>
    cases token_eq
    exact ⟨String.toList_ofList.symm, letters⟩
  | numeral _ _ _ made =>
    obtain ⟨value, rfl⟩ := ofNumeral_eq_ok made
    cases token_eq
  | symbol made =>
    subst token_eq
    unfold ofSymbol? at made
    split at made <;> cases made

theorem count_assign (h : Slice slice rest token) :
    slice.count '=' = if token = .assign then 1 else 0 := by
  cases h with
  | name _ letters =>
    rw [if_neg nofun, List.count_eq_zero]
    intro mem
    have letter := letters '=' mem
    revert letter
    decide
  | @numeral c run rest token begins digits _ made =>
    obtain ⟨value, rfl⟩ := ofNumeral_eq_ok made
    rw [if_neg nofun, List.count_eq_zero]
    intro mem
    have numeral : inNumeral '=' := by
      rcases List.mem_cons.mp mem with rfl | mem
      · exact inNumeral_of_startsNumeral begins
      · exact digits _ mem
    revert numeral
    decide
  | @symbol c rest token made =>
    by_cases assigns : token = .assign
    · subst assigns
      cases ofSymbol?_assign.mp made
      rfl
    · have other : c ≠ '=' := by
        rintro rfl
        exact assigns (Option.some.inj (made.symm.trans rfl))
      rw [if_neg assigns, List.count_singleton, if_neg (by simpa using other)]

theorem eq_assign (h : Slice slice rest .assign) : slice = ['='] := by
  generalize token_eq : Token.assign = token at h
  cases h with
  | name => cases token_eq
  | numeral _ _ _ made =>
    obtain ⟨value, rfl⟩ := ofNumeral_eq_ok made
    cases token_eq
  | symbol made =>
    subst token_eq
    rw [ofSymbol?_assign.mp made]

end Slice

/-! ### Cutting a text -/

theorem head?_dropWhile {p : Char → Bool} : ∀ c ∈ (rest.dropWhile p).head?, ¬ p c := by
  intro c next
  have stopped := List.head?_dropWhile_not p rest
  rw [Option.mem_def.mp next] at stopped
  simpa using stopped

theorem sliced_of_scanFrom (h : scanFrom position text = .ok tokens) :
    Sliced position text tokens := by
  fun_induction scanFrom position text generalizing tokens with
  | case1 position =>
    cases h
    exact .done
  | case2 position c rest blank ih => exact .blank blank (ih h)
  | case3 position c rest _ letter name =>
    rename_i ih
    obtain ⟨lexemes, scanned, ⟨⟩⟩ := bind_eq_ok.mp h
    have letters : ∀ d ∈ name, d.isAlpha :=
      List.forall_mem_cons.mpr ⟨letter, List.all_eq_true.mp List.all_takeWhile⟩
    have cut : Sliced position (name ++ rest.dropWhile Char.isAlpha) _ :=
      .slice (.name (List.cons_ne_nil _ _) letters head?_dropWhile) (ih scanned)
    rwa [List.cons_append, List.takeWhile_append_dropWhile] at cut
  | case4 position c rest _ _ begins run =>
    rename_i ih
    obtain ⟨token, made, h⟩ := bind_eq_ok.mp h
    obtain ⟨lexemes, scanned, ⟨⟩⟩ := bind_eq_ok.mp h
    have whole : startsNumeral c (rest.takeWhile inNumeral ++ rest.dropWhile inNumeral) := by
      rwa [List.takeWhile_append_dropWhile]
    have cut : Sliced position (run ++ rest.dropWhile inNumeral) _ :=
      .slice (.numeral whole (List.all_eq_true.mp List.all_takeWhile) head?_dropWhile
        (mapError_eq_ok.mp made)) (ih scanned)
    rwa [List.cons_append, List.takeWhile_append_dropWhile] at cut
  | case5 position c rest _ _ _ token made ih =>
    obtain ⟨lexemes, scanned, ⟨⟩⟩ := bind_eq_ok.mp h
    exact .slice (.symbol made) (ih scanned)
  | case6 => cases h

namespace Sliced

theorem inText (h : Sliced position text tokens) : ∀ c ∈ text, inText c := by
  induction h with
  | done => exact nofun
  | blank blank _ ih =>
    intro c mem
    rcases List.mem_cons.mp mem with rfl | mem
    · simp [Token.inText, blank]
    · exact ih c mem
  | slice slice _ ih =>
    intro c mem
    rcases List.mem_append.mp mem with mem | mem
    · exact slice.inText c mem
    · exact ih c mem

theorem closed (h : Sliced position text tokens) : Closed (position + text.length) tokens := by
  induction h with
  | done => exact .last
  | blank _ _ ih => rwa [Nat.add_right_comm, Nat.add_assoc] at ih
  | slice slice _ ih =>
    rw [List.length_append, ← Nat.add_assoc]
    exact .cons slice.plain ih

theorem le_position (h : Sliced position text tokens) :
    ∀ lexeme ∈ tokens, position ≤ lexeme.position := by
  induction h with
  | done => simp
  | blank _ _ ih =>
    intro lexeme mem
    exact Nat.le_of_succ_le (ih lexeme mem)
  | slice _ _ ih =>
    intro lexeme mem
    rcases List.mem_cons.mp mem with rfl | mem
    · exact Nat.le_refl _
    · exact Nat.le_trans (Nat.le_add_right _ _) (ih lexeme mem)

theorem ascending (h : Sliced position text tokens) :
    tokens.Pairwise fun a b => a.position < b.position := by
  induction h with
  | done => simp
  | blank _ _ ih => exact ih
  | slice slice sliced ih =>
    refine List.pairwise_cons.mpr ⟨?_, ih⟩
    intro lexeme mem
    have longer := List.length_pos_iff.mpr slice.ne_nil
    have le := sliced.le_position lexeme mem
    simp only
    omega

theorem count_assign (h : Sliced position text tokens) :
    text.count '=' = tokens.countP fun lexeme => lexeme.token = .assign := by
  induction h with
  | done => rfl
  | @blank position c rest tokens blank _ ih =>
    have other : c ≠ '=' := by
      rintro rfl
      revert blank
      decide
    rw [List.count_cons_of_ne other, ih]
  | slice slice _ ih =>
    rw [List.count_append, slice.count_assign, ih, List.countP_cons, Nat.add_comm]
    simp only [decide_eq_true_eq]

/-- What stands before the first slice is blank. -/
theorem uncons {start : Nat} (h : Sliced position text (⟨token, start⟩ :: tokens))
    (plain : token ≠ .endOfInput) :
    ∃ blanks slice rest, text = blanks ++ slice ++ rest ∧ (∀ c ∈ blanks, isBlank c) ∧
      start = position + blanks.length ∧ Slice slice rest token ∧
      Sliced (start + slice.length) rest tokens := by
  generalize all_eq : (⟨token, start⟩ :: tokens : List Lexeme) = all at h
  induction h with
  | done =>
    cases all_eq
    exact absurd rfl plain
  | @blank position c text all blank _ ih =>
    obtain ⟨blanks, slice, rest, rfl, blanks_blank, rfl, made, sliced⟩ := ih all_eq
    refine ⟨c :: blanks, slice, rest, rfl, List.forall_mem_cons.mpr ⟨blank, blanks_blank⟩, ?_,
      made, sliced⟩
    rw [List.length_cons, Nat.add_right_comm, Nat.add_assoc]
  | slice slice sliced =>
    cases all_eq
    exact ⟨[], _, _, rfl, nofun, rfl, slice, sliced⟩

end Sliced

end Token

/-! ### Texts -/

variable {text : String} {tokens : List Lexeme}

theorem sliced_of_scan (h : scan text = .ok tokens) : Token.Sliced 0 text.toList tokens :=
  Token.sliced_of_scanFrom h

/-- Only characters of one byte can be scanned. -/
theorem utf8ByteSize_of_scan (h : scan text = .ok tokens) :
    text.utf8ByteSize = text.toList.length := by
  rw [← String.utf8Len_toList, Token.utf8Len_of_inText (sliced_of_scan h).inText]

theorem closed_of_scan (h : scan text = .ok tokens) : Closed text.utf8ByteSize tokens := by
  have closed := (sliced_of_scan h).closed
  rwa [Nat.zero_add, ← utf8ByteSize_of_scan h] at closed

end Calculator
