import Calculator.Proofs.Correspondence
import Calculator.Proofs.Separation

/-!
A stretch of a text is a text of its own.

A stretch that blanks surround is scanned alone as it is within the text: its tokens before the end
are the same, at places that are smaller by what comes before it (`Token.Sliced.exists_scan`). The
assembly does not look at places, so where the text behind some token has a tree, the stretch
has the same one (`evaluate_of_sliced`).
-/

namespace Calculator

open Token

variable {position start : Nat} {run slice rest text : List Char} {token : Token}
  {tokens : List Lexeme}

/-! ### Stretches of a text -/

namespace Token

theorem Slice.not_isBlank (fits : Slice slice rest token) : ∀ c ∈ slice, ¬ isBlank c := by
  cases fits with
  | name _ letters => exact fun c mem => class_of_isAlpha (letters c mem)
  | numeral begins digits =>
    refine List.forall_mem_cons.mpr ⟨?_, fun c mem => (class_of_inNumeral (digits c mem)).1⟩
    exact (class_of_inNumeral (inNumeral_of_startsNumeral begins)).1
  | symbol made => exact List.forall_mem_singleton.mpr (class_of_ofSymbol? made).1

theorem Slice.shorten {later : List Char} (fits : Slice slice (rest ++ later) token) :
    Slice slice rest token := by
  have piece : Piece.Fits ⟨slice, some token⟩ (rest ++ later) := .slice fits
  cases piece.shorten with
  | slice fits => exact fits

namespace Sliced

/-- Slices are what scanning finds. -/
theorem scanFrom_eq_ok (sliced : Sliced position text tokens) :
    scanFrom position text = .ok tokens := by
  induction sliced with
  | done => rw [scanFrom]
  | blank blank _ ih => rw [scanFrom, if_pos blank, ih]
  | slice fits _ ih =>
    have whole : Piece.Fits ⟨_, some _⟩ _ := .slice fits
    rw [whole.scanFrom, ih]
    rfl

theorem of_blanks_append (blanks : ∀ c ∈ run, isBlank c)
    (sliced : Sliced position (run ++ rest) tokens) : Sliced (position + run.length) rest tokens :=
  sliced_of_scanFrom ((scanFrom_blanks blanks).symm.trans sliced.scanFrom_eq_ok)

/-- A text of blanks has no tokens before the end. -/
theorem beforeEnd_of_blanks (blanks : ∀ c ∈ run, isBlank c) (sliced : Sliced position run tokens) :
    beforeEnd tokens = [] := by
  rw [← List.append_nil run] at sliced
  have scanned := (sliced.of_blanks_append blanks).scanFrom_eq_ok
  rw [scanFrom] at scanned
  cases scanned
  rfl

/-- The blanks that a text ends with can be left out. -/
theorem exists_of_append_blanks {blanks : List Char} (all : ∀ c ∈ blanks, isBlank c)
    (sliced : Sliced position (text ++ blanks) tokens) :
    ∃ others, Sliced position text others ∧ beforeEnd others = beforeEnd tokens := by
  generalize whole_eq : text ++ blanks = whole at sliced
  induction sliced generalizing text with
  | @done position =>
    obtain ⟨rfl, rfl⟩ := List.append_eq_nil_iff.mp whole_eq
    exact ⟨_, .done, rfl⟩
  | @blank position c rest tokens blank sliced ih =>
    cases text with
    | nil =>
      subst whole_eq
      exact ⟨_, .done, (Sliced.blank blank sliced |>.beforeEnd_of_blanks all).symm⟩
    | cons d text =>
      cases whole_eq
      obtain ⟨others, sliced, same⟩ := ih rfl
      exact ⟨others, .blank blank sliced, same⟩
  | @slice position slice rest token tokens fits sliced ih =>
    -- A slice holds no blanks, so it ends before they begin.
    obtain ⟨left, rfl, rfl⟩ : ∃ left, text = slice ++ left ∧ rest = left ++ blanks := by
      rcases List.append_eq_append_iff.mp whole_eq with ⟨excess, rfl, rfl⟩ | inside
      · have none : excess = [] := by
          refine List.eq_nil_iff_forall_not_mem.mpr fun d mem => ?_
          have blank := all d (List.mem_append_left _ mem)
          exact fits.not_isBlank d (List.mem_append_right _ mem) blank
        subst none
        exact ⟨[], by simp, rfl⟩
      · exact inside
    obtain ⟨others, sliced, same⟩ := ih rfl
    refine ⟨_, .slice fits.shorten sliced, ?_⟩
    rw [beforeEnd_cons fits.plain.2, beforeEnd_cons fits.plain.2, same]

/-- A text has the same slices anywhere, at places that are moved alike. -/
theorem add_iff {distance : Nat} :
    Sliced (start + distance) text tokens ↔
      ∃ others, Sliced start text others ∧ tokens = others.map (Lexeme.relocate (· + distance)) := by
  constructor
  · intro there
    have scanned := there.scanFrom_eq_ok
    rw [scanFrom_add] at scanned
    obtain ⟨others, here, rfl⟩ := map_eq_ok.mp (mapError_eq_ok.mp scanned)
    exact ⟨others, sliced_of_scanFrom here, rfl⟩
  · rintro ⟨others, here, rfl⟩
    refine sliced_of_scanFrom ?_
    rw [scanFrom_add, here.scanFrom_eq_ok]
    rfl

/-- A stretch of a text that blanks surround can be scanned alone. It has the tokens that it has
within the text, at places that are smaller by what comes before it. -/
theorem exists_scan {front body back : List Char} (blank : ∀ c ∈ front, isBlank c)
    (blank' : ∀ c ∈ back, isBlank c) (sliced : Sliced start (front ++ body ++ back) tokens) :
    ∃ others, scan (String.ofList body) = .ok others ∧
      beforeEnd (others.map (Lexeme.relocate (· + (start + front.length)))) = beforeEnd tokens := by
  rw [List.append_assoc] at sliced
  obtain ⟨moved, there, same⟩ := (sliced.of_blanks_append blank).exists_of_append_blanks blank'
  rw [← Nat.zero_add (start + front.length)] at there
  obtain ⟨others, here, rfl⟩ := add_iff.mp there
  refine ⟨others, ?_, same⟩
  rw [scan, String.toList_ofList, here.scanFrom_eq_ok]

end Sliced

end Token

/-! ### Trees of a stretch -/

section Trees

variable {bindings : Bindings} {tree : Tree}

/-- A stretch of a text can be evaluated alone, and its tree is the same at other places. -/
theorem evaluate_of_sliced {front body back : List Char} (blank : ∀ c ∈ front, isBlank c)
    (blank' : ∀ c ∈ back, isBlank c) (sliced : Sliced start (front ++ body ++ back) tokens)
    (evaluated : evaluateTokens tokens bindings = .ok tree) :
    ∃ inner, evaluate (String.ofList body) bindings = .ok inner ∧
      tree = inner.relocate (· + (start + front.length)) := by
  obtain ⟨others, scanned, same⟩ := sliced.exists_scan blank blank'
  have moved := evaluateTokens_of_beforeEnd same evaluated
  have sides := Correspondence.matches_evaluateTokens (· + (start + front.length)) (fun _ => True)
    (fun _ _ => trivial) (fun _ _ _ _ => Eq.refl (bindings.get? _))
    (.inr ⟨_, (closed_of_scan scanned).endOfInput_mem, rfl⟩)
  rw [moved] at sides
  rw [evaluate_of_scan scanned]
  generalize evaluateTokens others bindings = result at sides ⊢
  cases sides with
  | @ok _ inner related => exact ⟨inner, rfl, related⟩

end Trees

end Calculator
