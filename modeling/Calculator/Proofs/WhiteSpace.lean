import Calculator.Proofs.Cut
import Calculator.WhiteSpace

/-!
White space in the texts that are accepted.

White space is more than the blanks that separate tokens, but in a text that can be scanned there
is no other (`isBlank_of_isWhiteSpace`). Trimming leaves out white space at the two ends of a text
and nothing else (`exists_trim_append`, `trim_append`).
-/

namespace Calculator

open Token

variable {c : Char} {run text : List Char}

/-! ### Blanks -/

theorem isWhiteSpace_assign : ¬ isWhiteSpace '=' := by
  decide

theorem isWhiteSpace_of_isBlank (blank : isBlank c) : isWhiteSpace c := by
  simp only [isBlank, Bool.or_eq_true, beq_iff_eq] at blank
  rcases blank with (((rfl | rfl) | rfl) | rfl) | rfl <;> decide

theorem not_isWhiteSpace_of_isAlpha (letter : c.isAlpha) : ¬ isWhiteSpace c := by
  intro space
  have codes := toNat_of_isAlpha letter
  simp [isWhiteSpace, whiteSpaceRanges] at space
  omega

theorem not_isWhiteSpace_of_inNumeral (numeral : inNumeral c) : ¬ isWhiteSpace c := by
  intro space
  have codes := toNat_of_inNumeral numeral
  simp [isWhiteSpace, whiteSpaceRanges] at space
  omega

/-- In a text that can be scanned there is no white space but blanks. -/
theorem isBlank_of_isWhiteSpace (inside : inText c) (space : isWhiteSpace c) : isBlank c := by
  simp only [inText, Bool.or_eq_true] at inside
  rcases inside with ((blank | letter) | numeral) | symbol
  · exact blank
  · exact absurd space (not_isWhiteSpace_of_isAlpha letter)
  · exact absurd space (not_isWhiteSpace_of_inNumeral numeral)
  · unfold ofSymbol? at symbol
    split at symbol <;> first | (revert space; decide) | cases symbol

/-! ### Trimming -/

theorem exists_trimStart_append (text : List Char) :
    ∃ front, text = front ++ trimStart text ∧ ∀ c ∈ front, isWhiteSpace c :=
  ⟨text.takeWhile isWhiteSpace, List.takeWhile_append_dropWhile.symm,
    List.all_eq_true.mp List.all_takeWhile⟩

theorem exists_trimEnd_append (text : List Char) :
    ∃ back, text = trimEnd text ++ back ∧ ∀ c ∈ back, isWhiteSpace c := by
  refine ⟨(text.reverse.takeWhile isWhiteSpace).reverse, ?_, ?_⟩
  · rw [trimEnd, ← List.reverse_append, List.takeWhile_append_dropWhile, List.reverse_reverse]
  · simpa using List.all_eq_true.mp (List.all_takeWhile (p := isWhiteSpace) (l := text.reverse))

theorem trimStart_append (spaces : ∀ c ∈ run, isWhiteSpace c)
    (visible : ∀ c ∈ text.head?, ¬ isWhiteSpace c) : trimStart (run ++ text) = text :=
  dropWhile_run spaces visible

/-- White space is left out up to the last character that is none. -/
theorem trimEnd_append_cons (visible : ¬ isWhiteSpace c) (front back : List Char) :
    trimEnd (front ++ c :: back) = front ++ c :: trimEnd back := by
  obtain ⟨spaces, back_eq, all⟩ := exists_trimEnd_append back
  have stops : ∀ d ∈ ((trimEnd back).reverse ++ c :: front.reverse).head?, ¬ isWhiteSpace d := by
    have last : ∀ d ∈ (back.reverse.dropWhile isWhiteSpace).head?, ¬ isWhiteSpace d :=
      head?_dropWhile
    rw [trimEnd, List.reverse_reverse]
    cases kept_eq : back.reverse.dropWhile isWhiteSpace with
    | nil =>
      rintro _ ⟨⟩
      exact visible
    | cons d kept =>
      rw [kept_eq] at last
      exact last
  have split : (front ++ c :: back).reverse =
      spaces.reverse ++ ((trimEnd back).reverse ++ c :: front.reverse) := by
    conv_lhs => rw [back_eq]
    simp
  rw [trimEnd, split, dropWhile_run (by simpa using all) stops]
  simp

theorem trimEnd_of_spaces (spaces : ∀ c ∈ run, isWhiteSpace c) : trimEnd run = [] := by
  have dropped : (run.reverse ++ []).dropWhile isWhiteSpace = [] :=
    dropWhile_run (by simpa using spaces) nofun
  rw [List.append_nil] at dropped
  rw [trimEnd, dropped, List.reverse_nil]

/-- The white space around a text is left out. -/
theorem trim_append {front back : List Char} (spaces : ∀ c ∈ front, isWhiteSpace c)
    (spaces' : ∀ c ∈ back, isWhiteSpace c) (nonempty : text ≠ [])
    (visible : ∀ c ∈ text, ¬ isWhiteSpace c) : trim (front ++ text ++ back) = text := by
  obtain ⟨init, last, rfl⟩ := List.eq_nil_or_concat' text |>.resolve_left nonempty
  have first : ∀ c ∈ (init ++ [last] ++ back).head?, ¬ isWhiteSpace c := by
    cases init with
    | nil =>
      rintro _ ⟨⟩
      exact visible last (by simp)
    | cons d init =>
      rintro _ ⟨⟩
      exact visible d (by simp)
  have ends := trimEnd_append_cons (visible last (by simp)) init back
  rw [trim, List.append_assoc, trimStart_append spaces first, List.append_assoc,
    List.singleton_append, ends, trimEnd_of_spaces spaces']

/-- What is left out is white space. -/
theorem exists_trim_append (text : List Char) :
    ∃ front back, text = front ++ trim text ++ back ∧ (∀ c ∈ front, isWhiteSpace c) ∧
      ∀ c ∈ back, isWhiteSpace c := by
  obtain ⟨front, front_eq, spaces⟩ := exists_trimStart_append text
  obtain ⟨back, back_eq, spaces'⟩ := exists_trimEnd_append (trimStart text)
  refine ⟨front, back, ?_, spaces, spaces'⟩
  rw [trim, List.append_assoc, ← back_eq, ← front_eq]

/-! ### Counting -/

theorem count_of_spaces (visible : ¬ isWhiteSpace c) (spaces : ∀ d ∈ run, isWhiteSpace d) :
    run.count c = 0 := by
  rw [List.count_eq_zero]
  intro mem
  exact visible (spaces c mem)

theorem count_trimStart (visible : ¬ isWhiteSpace c) (text : List Char) :
    (trimStart text).count c = text.count c := by
  obtain ⟨front, split, spaces⟩ := exists_trimStart_append text
  conv_rhs => rw [split, List.count_append, count_of_spaces visible spaces, Nat.zero_add]

theorem count_trim (visible : ¬ isWhiteSpace c) (text : List Char) :
    (trim text).count c = text.count c := by
  obtain ⟨front, back, split, spaces, spaces'⟩ := exists_trim_append text
  conv_rhs =>
    rw [split, List.count_append, List.count_append, count_of_spaces visible spaces,
      count_of_spaces visible spaces', Nat.zero_add, Nat.add_zero]

end Calculator
