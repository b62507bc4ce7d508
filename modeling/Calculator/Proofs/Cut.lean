import Calculator.Proofs.Scan

/-!
Scanning is the cut of a text.

The classes of characters exclude each other, so a text begins with one piece at most
(`firstPiece?_eq_some_iff`). Taking pieces off until none begins gives a cut of every text
(`exists_cut`), and there is no other (`Cut.unique`). Scanning follows it: it goes through
each piece as a whole (`Piece.Fits.scanFrom`) and fails where the cut is stuck
(`scanFrom_of_stuck`), so where the cut ends decides what it gives (`scan_spec`).
-/

namespace Calculator

namespace Token

variable {position : Nat} {c : Char} {run slice rest text : List Char} {token : Token}
  {piece : Piece} {pieces : List Piece}

/-! ### The classes -/

theorem class_of_isBlank (blank : isBlank c) : ¬ c.isAlpha ∧ ¬ inNumeral c := by
  simp only [isBlank, Bool.or_eq_true, beq_iff_eq] at blank
  rcases blank with (((rfl | rfl) | rfl) | rfl) | rfl <;> decide

theorem class_of_isAlpha (letter : c.isAlpha) : ¬ isBlank c := by
  intro blank
  exact (class_of_isBlank blank).1 letter

theorem class_of_inNumeral (numeral : inNumeral c) : ¬ isBlank c ∧ ¬ c.isAlpha := by
  refine ⟨fun blank => (class_of_isBlank blank).2 numeral, fun letter => ?_⟩
  have letters := toNat_of_isAlpha letter
  have digits := toNat_of_inNumeral numeral
  omega

theorem class_of_ofSymbol? (made : ofSymbol? c = some token) :
    ¬ isBlank c ∧ ¬ c.isAlpha ∧ ¬ inNumeral c := by
  unfold ofSymbol? at made
  split at made <;> first | decide | cases made

/-! ### The first piece -/

/-- The piece that a text begins with, and what follows it. -/
def firstPiece? : List Char → Option (Piece × List Char)
  | [] => none
  | c :: rest =>
    if isBlank c then
      some (⟨c :: rest.takeWhile isBlank, none⟩, rest.dropWhile isBlank)
    else if c.isAlpha then
      let name := c :: rest.takeWhile Char.isAlpha
      some (⟨name, some (.identifier (String.ofList name))⟩, rest.dropWhile Char.isAlpha)
    else if startsNumeral c rest then
      let run := c :: rest.takeWhile inNumeral
      match ofNumeral run with
      | .ok token => some (⟨run, some token⟩, rest.dropWhile inNumeral)
      | .error _ => none
    else
      (ofSymbol? c).map fun token => (⟨[c], some token⟩, rest)

theorem takeWhile_run {p : Char → Bool} (all : ∀ c ∈ run, p c) (next : ∀ c ∈ rest.head?, ¬ p c) :
    (run ++ rest).takeWhile p = run := by
  rw [List.takeWhile_append_of_pos all]
  cases rest with
  | nil => simp
  | cons d rest => simp [next d rfl]

theorem dropWhile_run {p : Char → Bool} (all : ∀ c ∈ run, p c) (next : ∀ c ∈ rest.head?, ¬ p c) :
    (run ++ rest).dropWhile p = rest := by
  rw [List.dropWhile_append_of_pos all]
  cases rest with
  | nil => simp
  | cons d rest => simp [next d rfl]

/-- Whatever piece a text begins with, it is the first one. -/
theorem Piece.Fits.firstPiece? (fits : piece.Fits rest) :
    firstPiece? (piece.text ++ rest) = some (piece, rest) := by
  cases fits with
  | blanks nonempty blanks next =>
    obtain ⟨c, run, rfl⟩ := List.exists_cons_of_ne_nil nonempty
    obtain ⟨blank, blanks⟩ := List.forall_mem_cons.mp blanks
    simp [Token.firstPiece?, blank, takeWhile_run blanks next, dropWhile_run blanks next]
  | slice fits =>
    cases fits with
    | name nonempty letters next =>
      obtain ⟨c, run, rfl⟩ := List.exists_cons_of_ne_nil nonempty
      obtain ⟨letter, letters⟩ := List.forall_mem_cons.mp letters
      simp [Token.firstPiece?, class_of_isAlpha letter, letter,
        takeWhile_run letters next, dropWhile_run letters next]
    | numeral begins digits next made =>
      obtain ⟨blank, letter⟩ := class_of_inNumeral (inNumeral_of_startsNumeral begins)
      simp [Token.firstPiece?, blank, letter, begins, takeWhile_run digits next,
        dropWhile_run digits next, made]
    | symbol made =>
      obtain ⟨blank, letter, numeral⟩ := class_of_ofSymbol? made
      simp [Token.firstPiece?, blank, letter, mt inNumeral_of_startsNumeral numeral, made]

theorem firstPiece?_eq_some_iff :
    firstPiece? text = some (piece, rest) ↔ text = piece.text ++ rest ∧ piece.Fits rest := by
  constructor
  · fun_cases firstPiece? text with
    | case1 => exact nofun
    | case2 c text blank =>
      rintro ⟨⟩
      refine ⟨by simp, .blanks (List.cons_ne_nil _ _) ?_ head?_dropWhile⟩
      exact List.forall_mem_cons.mpr ⟨blank, List.all_eq_true.mp List.all_takeWhile⟩
    | case3 c text _ letter name =>
      rintro ⟨⟩
      refine ⟨by simp [name], .slice (.name (List.cons_ne_nil _ _) ?_ head?_dropWhile)⟩
      exact List.forall_mem_cons.mpr ⟨letter, List.all_eq_true.mp List.all_takeWhile⟩
    | case4 c text _ _ begins run token made =>
      rintro ⟨⟩
      refine ⟨by simp [run], .slice (.numeral ?_ ?_ head?_dropWhile made)⟩
      · rwa [List.takeWhile_append_dropWhile]
      · exact List.all_eq_true.mp List.all_takeWhile
    | case5 => exact nofun
    | case6 c text =>
      intro first
      obtain ⟨token, made, ⟨⟩⟩ := Option.map_eq_some_iff.mp first
      exact ⟨rfl, .slice (.symbol made)⟩
  · rintro ⟨rfl, fits⟩
    exact fits.firstPiece?

theorem stuck_iff : Stuck text ↔ firstPiece? text = none := by
  rw [Option.eq_none_iff_forall_ne_some]
  constructor
  · rintro stuck ⟨piece, rest⟩ first
    obtain ⟨split, fits⟩ := firstPiece?_eq_some_iff.mp first
    exact stuck piece rest split fits
  · intro none piece rest split fits
    exact none _ (firstPiece?_eq_some_iff.mpr ⟨split, fits⟩)

/-! ### Cuts -/

theorem Piece.Fits.ne_nil (fits : piece.Fits rest) : piece.text ≠ [] := by
  cases fits with
  | blanks nonempty => exact nonempty
  | slice fits => exact fits.ne_nil

theorem Piece.Fits.inText (fits : piece.Fits rest) : ∀ c ∈ piece.text, inText c := by
  cases fits with
  | blanks _ blanks =>
    intro c mem
    simp [Token.inText, blanks c mem]
  | slice fits => exact fits.inText

theorem utf8ByteSize_of_inText (h : ∀ c ∈ text, inText c) :
    (String.ofList text).utf8ByteSize = text.length := by
  rw [← String.utf8Len_toList, String.toList_ofList, utf8Len_of_inText h]

theorem Piece.Fits.utf8ByteSize (fits : piece.Fits rest) :
    (String.ofList piece.text).utf8ByteSize = piece.text.length :=
  utf8ByteSize_of_inText fits.inText

theorem stuck_nil : Stuck [] :=
  stuck_iff.mpr rfl

theorem written_cons : written (piece :: pieces) = piece.text ++ written pieces :=
  List.flatMap_cons

theorem Cut.inText (cut : Cut pieces rest) : ∀ c ∈ written pieces, inText c := by
  induction pieces with
  | nil => exact nofun
  | cons piece pieces ih =>
    rw [written_cons]
    exact List.forall_mem_append.mpr ⟨cut.1.inText, ih cut.2⟩

/-- Every text has a cut that ends where no further piece begins. -/
theorem exists_cut (text : List Char) :
    ∃ pieces rest, text = written pieces ++ rest ∧ Cut pieces rest ∧ Stuck rest := by
  -- The pieces are taken off one by one, and each one takes a character with it.
  induction length_eq : text.length using Nat.strongRecOn generalizing text with
  | _ length ih =>
    subst length_eq
    cases first : firstPiece? text with
    | none => exact ⟨[], text, rfl, trivial, stuck_iff.mpr first⟩
    | some cut =>
      obtain ⟨piece, rest⟩ := cut
      obtain ⟨rfl, fits⟩ := firstPiece?_eq_some_iff.mp first
      have longer := List.length_pos_iff.mpr fits.ne_nil
      obtain ⟨pieces, rest, rfl, cut, stuck⟩ := ih rest.length (by simp; omega) rest rfl
      refine ⟨piece :: pieces, rest, ?_, ⟨fits, cut⟩, stuck⟩
      rw [written_cons, List.append_assoc]

/-- A text has no other cut that ends where no further piece begins. -/
theorem Cut.unique {pieces' : List Piece} {rest' : List Char} (cut : Cut pieces rest)
    (cut' : Cut pieces' rest') (stuck : Stuck rest) (stuck' : Stuck rest')
    (same : written pieces ++ rest = written pieces' ++ rest') : pieces = pieces' := by
  induction pieces generalizing pieces' with
  | nil =>
    cases pieces' with
    | nil => rfl
    | cons piece' pieces' =>
      rw [written_cons, List.append_assoc] at same
      exact absurd cut'.1 (stuck piece' _ same)
  | cons piece pieces ih =>
    rw [written_cons, List.append_assoc] at same
    cases pieces' with
    | nil => exact absurd cut.1 (stuck' piece _ same.symm)
    | cons piece' pieces' =>
      rw [written_cons, List.append_assoc] at same
      have first := cut.1.firstPiece?
      rw [same, cut'.1.firstPiece?] at first
      obtain ⟨rfl, rest_eq⟩ := Prod.mk.inj (Option.some.inj first)
      rw [ih cut.2 cut'.2 rest_eq.symm]

/-- Whether a numeral begins is settled within its run. -/
theorem startsNumeral_of_next {rest' : List Char} (begins : startsNumeral c (run ++ rest))
    (next : ∀ d ∈ rest.head?, ¬ inNumeral d) : startsNumeral c (run ++ rest') := by
  unfold startsNumeral at begins ⊢
  cases run with
  | nil =>
    cases rest with
    | nil =>
      have digit : c.isDigit := by simpa using begins
      simp [digit]
    | cons d rest =>
      have other := next d rfl
      simp only [inNumeral, Bool.or_eq_true, not_or] at other
      have digit : c.isDigit := by simpa [other.1] using begins
      simp [digit]
  | cons d run => exact begins

/-- A piece fits as well when less follows it. -/
theorem Piece.Fits.shorten {later : List Char} (fits : piece.Fits (rest ++ later)) :
    piece.Fits rest := by
  have next {p : Char → Bool} (stops : ∀ c ∈ (rest ++ later).head?, ¬ p c) :
      ∀ c ∈ rest.head?, ¬ p c := by
    intro c mem
    refine stops c ?_
    rw [Option.mem_def] at mem ⊢
    rw [List.head?_append, mem, Option.some_or]
  cases fits with
  | blanks nonempty blanks stops => exact .blanks nonempty blanks (next stops)
  | slice fits =>
    cases fits with
    | name nonempty letters stops => exact .slice (.name nonempty letters (next stops))
    | @numeral c run _ token begins digits stops made =>
      exact .slice (.numeral (startsNumeral_of_next begins stops) digits (next stops) made)
    | symbol made => exact .slice (.symbol made)

theorem Cut.shorten (cut : Cut pieces rest) : Cut pieces [] := by
  induction pieces with
  | nil => trivial
  | cons piece pieces ih =>
    refine ⟨?_, ih cut.2⟩
    rw [List.append_nil]
    exact cut.1.shorten

/-! ### Scanning -/

theorem scanFrom_blanks (blanks : ∀ c ∈ run, isBlank c) :
    scanFrom position (run ++ rest) = scanFrom (position + run.length) rest := by
  induction run generalizing position with
  | nil => rfl
  | cons c run ih =>
    obtain ⟨blank, blanks⟩ := List.forall_mem_cons.mp blanks
    rw [List.cons_append, scanFrom, if_pos blank, ih blanks, List.length_cons, Nat.add_assoc,
      Nat.add_comm 1]

/-- A piece is scanned as a whole. -/
theorem Piece.Fits.scanFrom (fits : piece.Fits rest) :
    scanFrom position (piece.text ++ rest) =
      ((piece.token?.map (⟨·, position⟩)).toList ++ ·) <$>
        scanFrom (position + piece.text.length) rest := by
  cases fits with
  | blanks nonempty blanks next =>
    rw [scanFrom_blanks blanks]
    simp
  | slice fits =>
    cases fits with
    | name nonempty letters next =>
      obtain ⟨c, run, rfl⟩ := List.exists_cons_of_ne_nil nonempty
      obtain ⟨letter, letters⟩ := List.forall_mem_cons.mp letters
      simp [Token.scanFrom, class_of_isAlpha letter, letter,
        takeWhile_run letters next, dropWhile_run letters next]
    | numeral begins digits next made =>
      obtain ⟨blank, letter⟩ := class_of_inNumeral (inNumeral_of_startsNumeral begins)
      simp [Token.scanFrom, blank, letter, begins, takeWhile_run digits next,
        dropWhile_run digits next, made, Except.mapError]
    | symbol made =>
      obtain ⟨blank, letter, numeral⟩ := class_of_ofSymbol? made
      simp [Token.scanFrom, blank, letter, mt inNumeral_of_startsNumeral numeral, made]

/-- A place where no piece begins is what scanning fails at. -/
theorem scanFrom_of_stuck (stuck : Stuck (c :: rest)) :
    scanFrom position (c :: rest) = .error ⟨obstacle c rest, position⟩ := by
  have none := stuck_iff.mp stuck
  by_cases blank : isBlank c
  · simp [firstPiece?, blank] at none
  by_cases letter : c.isAlpha
  · simp [firstPiece?, blank, letter] at none
  by_cases begins : startsNumeral c rest
  · cases made : ofNumeral (c :: rest.takeWhile inNumeral) with
    | ok token => simp [firstPiece?, blank, letter, begins, made] at none
    | error cause =>
      cases ofNumeral_eq_error made
      simp [scanFrom, blank, letter, begins, made, obstacle, Except.mapError]
  · cases made : ofSymbol? c with
    | some token => simp [firstPiece?, blank, letter, begins, made] at none
    | none => simp [scanFrom, blank, letter, begins, made, obstacle]

/-- Scanning goes through the pieces of a cut, to the end of the text. -/
theorem Cut.scanFrom_eq_ok (cut : Cut pieces []) :
    scanFrom position (written pieces) = .ok (lexemesOf position pieces) := by
  induction pieces generalizing position with
  | nil => simp [scanFrom, written, lexemesOf]
  | cons piece pieces ih =>
    obtain ⟨fits, cut⟩ := cut
    rw [List.append_nil] at fits
    rw [written_cons, fits.scanFrom, ih cut, lexemesOf, fits.utf8ByteSize]
    rfl

/-- Scanning goes through the pieces of a cut, to the place where it fails. -/
theorem Cut.scanFrom_eq_error {e : ScanError} (cut : Cut pieces rest)
    (failed : scanFrom (position + (written pieces).length) rest = .error e) :
    scanFrom position (written pieces ++ rest) = .error e := by
  induction pieces generalizing position with
  | nil => exact failed
  | cons piece pieces ih =>
    obtain ⟨fits, cut⟩ := cut
    rw [written_cons, List.length_append, ← Nat.add_assoc] at failed
    rw [written_cons, List.append_assoc, fits.scanFrom, ih cut failed]
    rfl

end Token

/-! ### Texts -/

open Token

/-- Where the cut of a text ends decides what scanning gives. -/
theorem scan_of_cut {text : String} {pieces : List Piece} (whole : text.toList = written pieces)
    (cut : Cut pieces []) : scan text = .ok (lexemesOf 0 pieces) := by
  rw [scan, whole, cut.scanFrom_eq_ok]

theorem scan_of_stuck {text : String} {pieces : List Piece} {c : Char} {rest : List Char}
    (split : text.toList = written pieces ++ c :: rest) (cut : Cut pieces (c :: rest))
    (stuck : Stuck (c :: rest)) :
    scan text = .error ⟨obstacle c rest, (String.ofList (written pieces)).utf8ByteSize⟩ := by
  rw [scan, split, utf8ByteSize_of_inText cut.inText]
  refine cut.scanFrom_eq_error ?_
  rw [scanFrom_of_stuck stuck, Nat.zero_add]

/-- A text can be scanned if it has a cut to its end. There is no other cut then, and the lexemes
are those of its pieces, closed by the end of input behind the last byte. Any other text has a cut
that ends before a character with which no piece begins: what stands before that character can be
scanned, and the error is about what begins there. -/
theorem scan_spec (text : String) :
    (∀ tokens, scan text = .ok tokens ↔
      ∃ pieces, text.toList = written pieces ∧ Cut pieces [] ∧ tokens = lexemesOf 0 pieces) ∧
    (∀ pieces pieces', text.toList = written pieces → Cut pieces [] →
      text.toList = written pieces' → Cut pieces' [] → pieces = pieces') ∧
    (∀ tokens, scan text = .ok tokens → Closed text.utf8ByteSize tokens) ∧
    ∀ e, scan text = .error e ↔
      ∃ pieces c rest, text.toList = written pieces ++ c :: rest ∧ Cut pieces (c :: rest) ∧
        Stuck (c :: rest) ∧
        scan (String.ofList (written pieces)) = .ok (lexemesOf 0 pieces) ∧
        e = ⟨obstacle c rest, (String.ofList (written pieces)).utf8ByteSize⟩ := by
  obtain ⟨pieces, rest, split, cut, stuck⟩ := exists_cut text.toList
  refine ⟨fun tokens => ⟨fun scanned => ?_, ?_⟩, ?_, fun _ => closed_of_scan,
    fun e => ⟨fun failed => ?_, ?_⟩⟩
  · cases rest with
    | nil =>
      rw [List.append_nil] at split
      refine ⟨pieces, split, cut, ?_⟩
      exact Except.ok.inj (scanned.symm.trans (scan_of_cut split cut))
    | cons c rest => cases scanned.symm.trans (scan_of_stuck split cut stuck)
  · rintro ⟨pieces, whole, cut, rfl⟩
    exact scan_of_cut whole cut
  · intro pieces pieces' whole cut whole' cut'
    refine cut.unique cut' stuck_nil stuck_nil ?_
    rw [← whole, whole']
  · cases rest with
    | nil =>
      rw [List.append_nil] at split
      cases failed.symm.trans (scan_of_cut split cut)
    | cons c rest =>
      refine ⟨pieces, c, rest, split, cut, stuck, ?_, ?_⟩
      · exact scan_of_cut String.toList_ofList cut.shorten
      · exact Except.error.inj (failed.symm.trans (scan_of_stuck split cut stuck))
  · rintro ⟨pieces, c, rest, split, cut, stuck, -, rfl⟩
    exact scan_of_stuck split cut stuck

/-- A letter, and two points that begin no numeral although a digit follows. -/
theorem scan_spec_points :
    scan "x..5" = .error ⟨.invalidCharacter '.', 1⟩ ∧
    ∀ pieces, "x".toList = written pieces → Cut pieces [] →
      pieces = [⟨['x'], some (.identifier "x")⟩] := by
  have letter : Slice ['x'] ['.', '.', '5'] (.identifier "x") := by
    refine .name (List.cons_ne_nil _ _) (List.forall_mem_singleton.mpr rfl) ?_
    rintro _ ⟨⟩
    decide
  have cut : Cut [⟨['x'], some (.identifier "x")⟩] ['.', '.', '5'] := ⟨.slice letter, trivial⟩
  have alone : Cut [⟨['x'], some (.identifier "x")⟩] [] := cut.shorten
  have stuck : Stuck ['.', '.', '5'] := stuck_iff.mpr rfl
  constructor
  · refine ((scan_spec "x..5").2.2.2 _).mpr ⟨_, '.', ['.', '5'], rfl, cut, stuck, ?_, rfl⟩
    exact ((scan_spec "x").1 _).mpr ⟨_, rfl, alone, rfl⟩
  · intro pieces whole cut
    exact (scan_spec "x").2.1 pieces _ whole cut rfl alone

end Calculator
