import Calculator.Proofs.Numeral
import Calculator.Proofs.Separation

/-!
Tokens that are written out are scanned again.

A token that has a text of its own (`IsWritable`) is scanned from that text alone
(`scanFrom_text`): a name is letters, a number is digits, possibly around a point, and what the
digits are read as is the number they were written for (`Numeral.toFloat_plain_write`). Single
spaces keep the texts apart, so a list of tokens is scanned from its texts (`scan_spaced`).
-/

namespace Calculator

namespace Token

variable {token : Token} {tokens : List Token} {position : Nat}

/-- The tokens whose text stands for them: names of letters, numbers that are finite and have no
sign, and the symbols. -/
def IsWritable : Token → Prop
  | .number value => value.isFinite ∧ 0.0 ≤ value ∧ value ≠ -0.0
  | .identifier name => IsName name
  | .blank | .endOfInput => False
  | _ => True

instance : DecidablePred IsWritable
  | .number value => inferInstanceAs (Decidable (value.isFinite ∧ 0.0 ≤ value ∧ value ≠ -0.0))
  | .identifier name => inferInstanceAs (Decidable (IsName name))
  | .blank | .endOfInput => inferInstanceAs (Decidable False)
  | .plus | .minus | .star | .slash | .percent | .caret | .openParen | .closeParen | .assign =>
    inferInstanceAs (Decidable True)

/-- The lexemes of tokens whose texts stand one behind the other, a space after each. -/
def spaced (position : Nat) : List Token → List Lexeme
  | [] => []
  | token :: tokens =>
    ⟨token, position⟩ :: spaced (position + token.text.utf8ByteSize + 1) tokens

/-! ### One token -/

/-- A numeral is a slice. -/
theorem slice_of_isPlain {text : List Char} (digits : Numeral.IsPlain text)
    (finite : (Numeral.plain text).toFloat.isFinite) :
    Slice text [] (.number (Numeral.plain text).toFloat) := by
  obtain ⟨c, run, rfl, digit⟩ := digits.exists_cons
  have begins : startsNumeral c (run ++ []) := by simp [startsNumeral, digit]
  have numerals : ∀ d ∈ run, inNumeral d := by
    intro d mem
    simpa [inNumeral] using digits.mem d (List.mem_cons_of_mem _ mem)
  have ends : ∀ d ∈ ([] : List Char).head?, ¬ inNumeral d := by simp
  exact .numeral begins numerals ends (ofNumeral_eq_ok_iff.mpr ⟨⟨digits.count_point, finite⟩, rfl⟩)

theorem slice_text (writable : token.IsWritable) : Slice token.text.toList [] token := by
  cases token with
  | number value =>
    obtain ⟨finite, nonneg, signless⟩ := writable
    obtain ⟨digits, same⟩ := Numeral.toFloat_plain_write finite nonneg signless
    have slice := slice_of_isPlain digits (same.symm ▸ finite)
    rwa [same] at slice
  | identifier name =>
    obtain ⟨nonempty, letters⟩ := writable
    have slice : Slice name.toList [] (.identifier (String.ofList name.toList)) :=
      .name (mt String.toList_eq_nil_iff.mp nonempty) (List.all_eq_true.mp letters) nofun
    rwa [String.ofList_toList] at slice
  | blank | endOfInput => exact writable.elim
  | _ => exact .symbol rfl

theorem length_text (writable : token.IsWritable) :
    token.text.toList.length = token.text.utf8ByteSize := by
  rw [← String.utf8Len_toList, utf8Len_of_inText (slice_text writable).inText]

theorem scanFrom_text (writable : token.IsWritable) :
    scanFrom position token.text.toList =
      .ok [⟨token, position⟩, ⟨.endOfInput, position + token.text.utf8ByteSize⟩] := by
  have fits : Piece.Fits ⟨token.text.toList, some token⟩ [] := .slice (slice_text writable)
  have scanned : scanFrom position (token.text.toList ++ []) = _ := fits.scanFrom
  rw [List.append_nil] at scanned
  rw [scanned, length_text writable, scanFrom]
  rfl

/-- The space behind a text ends it. -/
theorem scanFrom_text_append (writable : token.IsWritable) (rest : String) :
    scanFrom position (token.text ++ " " ++ rest).toList = do
      let lexemes ← scanFrom (position + token.text.utf8ByteSize + 1) rest.toList
      return ⟨token, position⟩ :: lexemes := by
  have blank : ∀ c ∈ " ".toList, isBlank c := List.forall_mem_singleton.mpr rfl
  have ends : ∀ c ∈ (" ".toList ++ rest.toList).head?, isBlank c := by
    rintro _ ⟨⟩
    rfl
  have alone : beforeEnd [⟨token, position⟩, ⟨.endOfInput, position + token.text.utf8ByteSize⟩] =
      [⟨token, position⟩] := by
    rw [beforeEnd_cons (slice_text writable).plain.2]
    rfl
  rw [String.toList_append, String.toList_append, List.append_assoc, scanFrom_append ends,
    scanFrom_text writable, scanFrom_blanks blank, length_text writable]
  change (do
    let after ← scanFrom (position + token.text.utf8ByteSize + 1) rest.toList
    return beforeEnd _ ++ after) = _
  rw [alone]
  rfl

/-! ### Several tokens -/

theorem map_token_spaced : (spaced position tokens).map Lexeme.token = tokens := by
  induction tokens generalizing position with
  | nil => rfl
  | cons token tokens ih => rw [spaced, List.map_cons, ih]

/-- A token stands behind the texts of those before it, and behind a space for each of them. -/
theorem getElem?_spaced (position : Nat) (before : List Token) (token : Token)
    (after : List Token) :
    (spaced position (before ++ token :: after))[before.length]? =
      some ⟨token, position + (String.join (before.map (·.text ++ " "))).utf8ByteSize⟩ := by
  induction before generalizing position with
  | nil => rfl
  | cons first before ih =>
    have space : " ".utf8ByteSize = 1 := rfl
    rw [List.cons_append, spaced, List.length_cons, List.getElem?_cons_succ, ih, List.map_cons,
      String.join_cons, String.utf8ByteSize_append, String.utf8ByteSize_append, space]
    simp only [Nat.add_assoc]

theorem intercalate_append (before : List Token) (token : Token) (after : List Token) :
    ∃ back, " ".intercalate ((before ++ token :: after).map text) =
      String.join (before.map (·.text ++ " ")) ++ token.text ++ back := by
  induction before with
  | nil =>
    cases after with
    | nil => exact ⟨"", by simp⟩
    | cons next after =>
      exact ⟨" " ++ " ".intercalate ((next :: after).map text), by simp [String.append_assoc]⟩
  | cons first before ih =>
    obtain ⟨back, ih⟩ := ih
    refine ⟨back, ?_⟩
    rw [List.cons_append, List.map_cons, String.intercalate_cons_of_ne_nil (by simp), ih]
    simp [String.append_assoc]

theorem scanFrom_spaced (position : Nat) (writable : ∀ token ∈ tokens, token.IsWritable) :
    scanFrom position (" ".intercalate (tokens.map text)).toList =
      .ok (spaced position tokens ++
        [⟨.endOfInput, position + (" ".intercalate (tokens.map text)).utf8ByteSize⟩]) := by
  induction tokens generalizing position with
  | nil =>
    rw [List.map_nil, String.intercalate_nil, spaced]
    exact scanFrom.eq_def ..
  | cons token tokens ih =>
    obtain ⟨first, writable⟩ := List.forall_mem_cons.mp writable
    cases tokens with
    | nil =>
      rw [List.map_singleton, String.intercalate_singleton, scanFrom_text first]
      rfl
    | cons next tokens =>
      rw [List.map_cons, String.intercalate_cons_of_ne_nil (by simp)]
      have behind (rest : String) : position + (token.text ++ " " ++ rest).utf8ByteSize =
          position + token.text.utf8ByteSize + 1 + rest.utf8ByteSize := by
        rw [String.utf8ByteSize_append, String.utf8ByteSize_append, ← Nat.add_assoc,
          ← Nat.add_assoc]
        rfl
      rw [scanFrom_text_append first, ih _ writable, behind]
      rfl

end Token

/-! ### Texts -/

open Token

/-- The texts of tokens, with single spaces between them, are scanned as these tokens. Each stands
behind the texts and spaces before its own text, and the end of input behind all of them. -/
theorem scan_spaced {tokens : List Token} (writable : ∀ token ∈ tokens, token.IsWritable) :
    scan (" ".intercalate (tokens.map text)) =
      .ok (spaced 0 tokens ++
        [⟨.endOfInput, (" ".intercalate (tokens.map text)).utf8ByteSize⟩]) ∧
    (spaced 0 tokens).map Lexeme.token = tokens ∧
    ∀ before token after, tokens = before ++ token :: after →
      ∃ front back, front = String.join (before.map (·.text ++ " ")) ∧
        " ".intercalate (tokens.map text) = front ++ token.text ++ back ∧
        (spaced 0 tokens)[before.length]? = some ⟨token, front.utf8ByteSize⟩ := by
  refine ⟨?_, map_token_spaced, ?_⟩
  · rw [scan, scanFrom_spaced 0 writable, Nat.zero_add]
  · rintro before token after rfl
    obtain ⟨back, split⟩ := intercalate_append before token after
    have place := getElem?_spaced 0 before token after
    rw [Nat.zero_add] at place
    exact ⟨_, back, rfl, split, place⟩

/-- A number that has more digits than are needed to tell it from its neighbours. -/
theorem scan_spaced_large :
    " ".intercalate ([.number 1e22, .minus, .identifier "x"].map text) =
      "10000000000000000000000 - x" ∧
    scan "10000000000000000000000 - x" =
      .ok [⟨.number 1e22, 0⟩, ⟨.minus, 24⟩, ⟨.identifier "x", 26⟩, ⟨.endOfInput, 27⟩] := by
  have texts : " ".intercalate ([.number 1e22, .minus, .identifier "x"].map text) =
      "10000000000000000000000 - x" := by
    decide +kernel
  have writable : ∀ token ∈ [.number 1e22, .minus, .identifier "x"], IsWritable token := by
    decide +kernel
  have scanned := (scan_spaced writable).1
  rw [texts] at scanned
  exact ⟨texts, scanned.trans (by decide +kernel)⟩

end Calculator
