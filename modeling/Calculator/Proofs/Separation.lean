import Calculator.Proofs.Cut
import Calculator.Proofs.Statement
import Calculator.Tree.Relocation

/-!
Blanks separate texts.

A blank ends every name and every numeral, so nothing that is scanned reaches from the characters
before it into those behind it: a text that goes on with a blank is scanned as what stands before
the blank and then as the rest (`scanFrom_append`). Where a text begins moves its lexemes and its
error, and does nothing else to them (`scanFrom_add`). Together this is what scanning makes of two
texts with blanks between them (`scan_append_blanks`).
-/

namespace Calculator

namespace Token

variable {position : Nat} {c : Char} {rest later text : List Char} {p : Char → Bool}
  {token : Token}

/-! ### Runs that end -/

section Runs

variable (stops : ∀ c ∈ later.head?, ¬ p c)

include stops

theorem head?_dropWhile_append : ∀ c ∈ (rest.dropWhile p ++ later).head?, ¬ p c := by
  cases left : rest.dropWhile p with
  | nil => exact stops
  | cons d left' =>
    rintro _ ⟨⟩
    have stopped : ∀ c ∈ (rest.dropWhile p).head?, ¬ p c := head?_dropWhile
    rw [left] at stopped
    exact stopped d rfl

theorem takeWhile_append_of_stops : (rest ++ later).takeWhile p = rest.takeWhile p := by
  conv_lhs => rw [← List.takeWhile_append_dropWhile (p := p) (l := rest), List.append_assoc]
  exact takeWhile_run (List.all_eq_true.mp List.all_takeWhile) (head?_dropWhile_append stops)

theorem dropWhile_append_of_stops : (rest ++ later).dropWhile p = rest.dropWhile p ++ later := by
  conv_lhs => rw [← List.takeWhile_append_dropWhile (p := p) (l := rest), List.append_assoc]
  exact dropWhile_run (List.all_eq_true.mp List.all_takeWhile) (head?_dropWhile_append stops)

end Runs

theorem startsNumeral_append (stops : ∀ c ∈ later.head?, ¬ inNumeral c) :
    startsNumeral c (rest ++ later) = startsNumeral c rest := by
  rw [Bool.eq_iff_iff]
  constructor
  · intro begins
    have alone : startsNumeral c (rest ++ []) := startsNumeral_of_next begins stops
    rwa [List.append_nil] at alone
  · intro begins
    rw [← List.append_nil rest] at begins
    exact startsNumeral_of_next begins nofun

theorem ne_endOfInput_of_ofNumeral (made : ofNumeral text = .ok token) : token ≠ .endOfInput := by
  obtain ⟨value, rfl⟩ := ofNumeral_eq_ok made
  simp

/-! ### Texts that go on with a blank -/

/-- The lexemes in front of the end of input, and those of the text that follows. -/
def continued (x y : Except ScanError (List Lexeme)) : Except ScanError (List Lexeme) := do
  let before ← x
  let after ← y
  return beforeEnd before ++ after

theorem continued_cons {x y : Except ScanError (List Lexeme)} (plain : token ≠ .endOfInput) :
    continued (do let lexemes ← x; return ⟨token, position⟩ :: lexemes) y =
      do let lexemes ← continued x y; return ⟨token, position⟩ :: lexemes := by
  simp [continued, beforeEnd, plain]

/-- The end of a text that begins with a run, counted from behind the run. -/
theorem length_run (position : Nat) (c : Char) (rest : List Char) (p : Char → Bool) :
    position + (c :: rest.takeWhile p).length + (rest.dropWhile p).length =
      position + (c :: rest).length := by
  have split := congrArg List.length (List.takeWhile_append_dropWhile (p := p) (l := rest))
  rw [List.length_append] at split
  rw [List.length_cons, List.length_cons]
  omega

/-- A blank ends whatever it stands behind, so the text in front of it is scanned as if it were
alone. -/
theorem scanFrom_append (ends : ∀ c ∈ later.head?, isBlank c) :
    scanFrom position (text ++ later) =
      continued (scanFrom position text) (scanFrom (position + text.length) later) := by
  -- What begins with a blank continues no run, so each run is as long as it is in the text alone.
  have letters : ∀ c ∈ later.head?, ¬ c.isAlpha := fun c mem => (class_of_isBlank (ends c mem)).1
  have numerals : ∀ c ∈ later.head?, ¬ inNumeral c := fun c mem => (class_of_isBlank (ends c mem)).2
  fun_induction scanFrom position text with
  | case1 position => simp [continued, beforeEnd]
  | case2 position c rest blank ih =>
    rw [List.cons_append, scanFrom, if_pos blank, ih, List.length_cons, Nat.add_assoc,
      Nat.add_comm 1]
  | case3 position c rest blank letter name ih =>
    rw [length_run] at ih
    rw [continued_cons (by simp), ← ih, List.cons_append, scanFrom, if_neg blank, if_pos letter,
      takeWhile_append_of_stops letters, dropWhile_append_of_stops letters]
  | case4 position c rest blank letter begins run ih =>
    rw [length_run] at ih
    rw [List.cons_append, scanFrom, if_neg blank, if_neg letter, startsNumeral_append numerals,
      if_pos begins, takeWhile_append_of_stops numerals, dropWhile_append_of_stops numerals]
    change (do
      let token ← (ofNumeral run).mapError fun cause => ScanError.mk cause position
      let lexemes ← scanFrom (position + run.length) (rest.dropWhile inNumeral ++ later)
      return Lexeme.mk token position :: lexemes) = _
    cases made : ofNumeral run with
    | error cause => rfl
    | ok token =>
      rw [ih]
      exact (continued_cons (ne_endOfInput_of_ofNumeral made)).symm
  | case5 position c rest blank letter begins token made ih =>
    rw [Nat.add_assoc, Nat.add_comm 1] at ih
    have fits : Slice [c] rest token := .symbol made
    rw [continued_cons fits.plain.2, List.length_cons, ← ih,
      List.cons_append, scanFrom, if_neg blank, if_neg letter, startsNumeral_append numerals,
      if_neg begins, made]
  | case6 position c rest blank letter begins made =>
    rw [List.cons_append, scanFrom, if_neg blank, if_neg letter, startsNumeral_append numerals,
      if_neg begins, made]
    rfl

/-! ### Another place -/

/-- The same lexemes, or the same error, further on. -/
def further (distance : Nat) (x : Except ScanError (List Lexeme)) :
    Except ScanError (List Lexeme) :=
  (List.map (Lexeme.relocate (· + distance)) <$> x).mapError (ScanError.relocate (· + distance))

theorem further_cons (distance : Nat) (x : Except ScanError (List Lexeme)) :
    further distance (do let lexemes ← x; return ⟨token, position⟩ :: lexemes) =
      do let lexemes ← further distance x; return ⟨token, position + distance⟩ :: lexemes := by
  cases x <;> rfl

/-- Scanning begins anywhere in the same way. -/
theorem scanFrom_add (position distance : Nat) (text : List Char) :
    scanFrom (position + distance) text = further distance (scanFrom position text) := by
  fun_induction scanFrom position text with
  | case1 position =>
    rw [scanFrom]
    rfl
  | case2 position c rest blank ih =>
    rw [scanFrom, if_pos blank, Nat.add_right_comm, ih]
  | case3 position c rest blank letter name ih =>
    rw [scanFrom, if_neg blank, if_pos letter, further_cons, ← ih, Nat.add_right_comm]
  | case4 position c rest blank letter begins run ih =>
    rw [scanFrom, if_neg blank, if_neg letter, if_pos begins]
    change (do
      let token ← (ofNumeral run).mapError fun cause => ScanError.mk cause (position + distance)
      let lexemes ← scanFrom (position + distance + run.length) (rest.dropWhile inNumeral)
      return Lexeme.mk token (position + distance) :: lexemes) = _
    cases made : ofNumeral run with
    | error cause => rfl
    | ok token =>
      rw [Nat.add_right_comm, ih]
      exact (further_cons distance _).symm
  | case5 position c rest blank letter begins token made ih =>
    rw [scanFrom, if_neg blank, if_neg letter, if_neg begins, made, further_cons, ← ih,
      Nat.add_right_comm]
  | case6 position c rest blank letter begins made =>
    rw [scanFrom, if_neg blank, if_neg letter, if_neg begins, made]
    rfl

end Token

/-! ### Two texts -/

open Token

/-- Blanks count one byte each, like everything that can be scanned before them. -/
theorem utf8ByteSize_append_blanks {a w : String} {tokens : List Lexeme}
    (scanned : scan a = .ok tokens) (blanks : ∀ c ∈ w.toList, isBlank c) :
    (a ++ w).utf8ByteSize = a.toList.length + w.toList.length := by
  have inside : ∀ c ∈ w.toList, inText c := fun c mem => by simp [inText, blanks c mem]
  rw [String.utf8ByteSize_append, utf8ByteSize_of_scan scanned, ← String.utf8Len_toList (s := w),
    utf8Len_of_inText inside]

/-- Two texts with blanks between them are scanned one after the other. If the first one fails, so
does the whole; what the second one gives, its error too, comes further on by all that is before
it. -/
theorem scan_append_blanks (a b : String) {w : String} (nonempty : w ≠ "")
    (blanks : ∀ c ∈ w.toList, isBlank c) :
    scan (a ++ w ++ b) = do
      let before ← scan a
      let after ← (scan b).mapError (ScanError.relocate (· + (a ++ w).utf8ByteSize))
      return beforeEnd before ++ after.map (Lexeme.relocate (· + (a ++ w).utf8ByteSize)) := by
  have ends : ∀ c ∈ (w.toList ++ b.toList).head?, isBlank c := by
    obtain ⟨c, run, run_eq⟩ := List.exists_cons_of_ne_nil (mt String.toList_eq_nil_iff.mp nonempty)
    rw [run_eq] at blanks ⊢
    rintro _ ⟨⟩
    exact blanks c List.mem_cons_self
  have split : scan (a ++ w ++ b) =
      continued (scan a) (scanFrom (0 + a.toList.length + w.toList.length) b.toList) := by
    rw [scan, String.toList_append, String.toList_append, List.append_assoc, scanFrom_append ends,
      scanFrom_blanks blanks, ← scan]
  rw [split, Nat.add_assoc, scanFrom_add, ← scan]
  cases scanned : scan a with
  | error e => rfl
  | ok before =>
    rw [← utf8ByteSize_append_blanks scanned blanks]
    cases scan b <;> rfl

/-- A point and a digit that a blank parts: with the digits in front, they would be one numeral. -/
theorem scan_append_blanks_point :
    scan ("1" ++ " \t" ++ ".5") = .ok [⟨.number 1.0, 0⟩, ⟨.number 0.5, 3⟩, ⟨.endOfInput, 5⟩] ∧
      scan ("1" ++ " \t" ++ "#") = .error ⟨.invalidCharacter '#', 3⟩ := by
  have blanks : ∀ c ∈ " \t".toList, isBlank c := List.all_eq_true.mp (by decide)
  rw [scan_append_blanks "1" ".5" (by decide) blanks, scan_append_blanks "1" "#" (by decide) blanks]
  decide +kernel

end Calculator
