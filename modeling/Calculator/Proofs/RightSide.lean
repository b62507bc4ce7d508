import Calculator.Proofs.EqualsSigns
import Calculator.Proofs.Stretch

/-!
The right-hand side of an assignment.

Settings and plots cut an assignment as a text, at its first equals sign, and trim what they get;
a statement is cut into tokens first. Both come to the same: the name is what stands before the sign
without the blanks (`readSetting_of_assignment`), and what stands behind it is a stretch of the text
(`plotBody?_of_assignment`).
-/

namespace Calculator

open Token CommandLine

variable {source name : String} {bindings : Bindings} {right : Tree} {value : Float} {p : Nat}

/-- A plot of `y` samples what stands behind the equals sign, without the white space around it. -/
theorem exists_plotBody? {before between after : List Char}
    (split : source.toList = before ++ ['y'] ++ between ++ '=' :: after)
    (spaces : ∀ c ∈ before, isWhiteSpace c) (spaces' : ∀ c ∈ between, isWhiteSpace c) :
    ∃ front body back, after = front ++ body ++ back ∧ (∀ c ∈ front, isWhiteSpace c) ∧
      (∀ c ∈ back, isWhiteSpace c) ∧ plotBody? source = some (String.ofList body) := by
  have starts : trimStart source.toList = 'y' :: between ++ '=' :: after := by
    rw [split, List.append_assoc, List.append_assoc, trimStart_append spaces]
    · rfl
    · rintro _ ⟨⟩
      decide
  have trimmed : trim source.toList = 'y' :: between ++ '=' :: trimEnd after := by
    rw [trim, starts, trimEnd_append_cons isWhiteSpace_assign]
  have signs : trimStart (between ++ '=' :: trimEnd after) = '=' :: trimEnd after := by
    refine trimStart_append spaces' ?_
    rintro _ ⟨⟩
    decide
  -- The end is trimmed with the whole text, and once more with what is taken out of it.
  obtain ⟨tail, after_eq, spacesTail⟩ := exists_trimEnd_append after
  obtain ⟨front, back, kept_eq, spacesFront, spacesBack⟩ := exists_trim_append (trimEnd after)
  refine ⟨front, trim (trimEnd after), back ++ tail, ?_, spacesFront, ?_, ?_⟩
  · rw [← List.append_assoc, ← kept_eq, ← after_eq]
  · exact List.forall_mem_append.mpr ⟨spacesBack, spacesTail⟩
  · simp only [plotBody?, trimmed, List.cons_append, signs]

/-- A setting takes the name and the value of an assignment. -/
theorem readSetting_of_assignment
    (evaluated : evaluate source .initial = .ok (.assignment name right value p)) :
    readSetting source = .ok (name, value) := by
  obtain ⟨before, between, after, tokens, split, blank, blank', ⟨nonempty, letters⟩, sliced, found,
    rfl⟩ := exists_rightSide_of_evaluate evaluated
  have spaces (c : Char) (mem : c ∈ before) := isWhiteSpace_of_isBlank (blank c mem)
  have spaces' (c : Char) (mem : c ∈ between) := isWhiteSpace_of_isBlank (blank' c mem)
  have first : '=' ∉ before ++ name.toList ++ between := by
    simp only [List.mem_append]
    rintro ((mem | mem) | mem)
    · exact absurd (spaces _ mem) isWhiteSpace_assign
    · exact absurd (letters _ mem) (by decide)
    · exact absurd (spaces' _ mem) isWhiteSpace_assign
  have trimmed : trim (before ++ name.toList ++ between) = name.toList :=
    trim_append spaces spaces' nonempty fun c mem => not_isWhiteSpace_of_isAlpha (letters c mem)
  -- The whole text behind the sign is taken, with the blanks that it has.
  rw [← List.nil_append after, ← List.append_nil ([] ++ after)] at sliced
  obtain ⟨inner, alone, rfl⟩ :=
    evaluate_of_sliced (List.forall_mem_nil _) (List.forall_mem_nil _) sliced found
  exact readSetting_eq_ok.mpr ⟨_, after, inner, split, first, trimmed,
    ⟨nonempty, List.all_eq_true.mpr letters⟩, alone, (Tree.value_relocate _ _).symm⟩

/-- A plot of `y` samples the right-hand side of an assignment to `y`. -/
theorem plotBody?_of_assignment
    (evaluated : evaluate source bindings = .ok (.assignment "y" right value p)) :
    ∃ front body back : String, source = front ++ body ++ back ∧ plotBody? source = some body ∧
      ∃ inner, evaluate body bindings = .ok inner ∧
        right = inner.relocate (· + front.utf8ByteSize) := by
  obtain ⟨before, between, after, tokens, split, blank, blank', -, sliced, found, -⟩ :=
    exists_rightSide_of_evaluate evaluated
  obtain ⟨front, body, back, rfl, spaces, spaces', taken⟩ := exists_plotBody? split
    (fun c mem => isWhiteSpace_of_isBlank (blank c mem))
    (fun c mem => isWhiteSpace_of_isBlank (blank' c mem))
  generalize lead_eq : before ++ "y".toList ++ between ++ ['='] = lead at sliced
  have source_eq : source.toList = lead ++ front ++ body ++ back := by
    rw [split, ← lead_eq]
    simp
  have inside : ∀ c ∈ lead ++ front ++ body ++ back, inText c := by
    obtain ⟨tokens, scanned, -⟩ := evaluate_eq_ok.mp evaluated
    exact source_eq ▸ (sliced_of_scan scanned).inText
  simp only [List.forall_mem_append] at inside
  obtain ⟨⟨⟨insideLead, insideFront⟩, -⟩, insideBack⟩ := inside
  obtain ⟨inner, alone, rfl⟩ := evaluate_of_sliced
    (fun c mem => isBlank_of_isWhiteSpace (insideFront c mem) (spaces c mem))
    (fun c mem => isBlank_of_isWhiteSpace (insideBack c mem) (spaces' c mem)) sliced found
  have distance : (String.ofList (lead ++ front)).utf8ByteSize = lead.length + front.length := by
    rw [utf8ByteSize_of_inText (List.forall_mem_append.mpr ⟨insideLead, insideFront⟩),
      List.length_append]
  refine ⟨.ofList (lead ++ front), .ofList body, .ofList back, ?_, taken, inner, alone, ?_⟩
  · rw [← String.toList_inj, source_eq]
    simp
  · rw [distance]

/-- What is assigned is what a setting gives, and what a plot of `y` samples: as a text of its own
it has the same tree, at places that are smaller by what comes before it. -/
theorem evaluate_rightSide
    (evaluated : evaluate source bindings = .ok (.assignment name right value p)) :
    (bindings = .initial → readSetting source = .ok (name, value)) ∧
    (name = "y" → ∃ front body back : String, source = front ++ body ++ back ∧
      plotBody? source = some body ∧
      ∃ inner, evaluate body bindings = .ok inner ∧
        right = inner.relocate (· + front.utf8ByteSize)) := by
  constructor
  · rintro rfl
    exact readSetting_of_assignment evaluated
  · rintro rfl
    exact plotBody?_of_assignment evaluated

/-- An assignment to `y` with blanks all around. -/
theorem evaluate_rightSide_difference :
    ∃ right value, evaluate " y = e - pi " .initial = .ok (.assignment "y" right value 1) ∧
      readSetting " y = e - pi " = .ok ("y", value) ∧
      ∃ front body back : String, " y = e - pi " = front ++ body ++ back ∧
        plotBody? " y = e - pi " = some body ∧
        ∃ inner, evaluate body .initial = .ok inner ∧
          right = inner.relocate (· + front.utf8ByteSize) := by
  have scanned : scan " y = e - pi " = .ok [⟨.identifier "y", 1⟩, ⟨.assign, 3⟩,
      ⟨.identifier "e", 5⟩, ⟨.minus, 7⟩, ⟨.identifier "pi", 9⟩, ⟨.endOfInput, 12⟩] := by
    simp [scan, scanFrom, isBlank, startsNumeral, ofSymbol?]
  have evaluated : ∃ right value,
      evaluate " y = e - pi " .initial = .ok (.assignment "y" right value 1) := by
    rw [evaluate_of_scan scanned]
    exact ⟨_, _, rfl⟩
  obtain ⟨right, value, evaluated⟩ := evaluated
  obtain ⟨setting, plot⟩ := evaluate_rightSide evaluated
  exact ⟨right, value, evaluated, setting rfl, plot rfl⟩

end Calculator
