import Calculator.Token.Scan

/-!
The slices of a text.

`Slice` says what a slice is, and which token it makes. `Sliced` says that a text is cut
into slices and blanks, each slice as long as its class reaches, and which lexemes the
slices leave. Both are relations on characters: nothing is searched for.

A `Cut` also keeps the slices, and the runs of blanks between them, as a list of pieces. It
may end before the text does, at a place where no piece begins (`Stuck`).
-/

namespace Calculator.Token

/-- A slice before the characters `rest`, and its token. A name or a numeral goes on for
as long as the characters belong to it. -/
inductive Slice : List Char → List Char → Token → Prop where
  | name {letters rest : List Char} :
      letters ≠ [] → (∀ c ∈ letters, c.isAlpha) → (∀ c ∈ rest.head?, ¬ c.isAlpha) →
      Slice letters rest (.identifier (String.ofList letters))
  | numeral {c : Char} {run rest : List Char} {token : Token} :
      startsNumeral c (run ++ rest) → (∀ d ∈ run, inNumeral d) →
      (∀ d ∈ rest.head?, ¬ inNumeral d) → ofNumeral (c :: run) = .ok token →
      Slice (c :: run) rest token
  | symbol {c : Char} {rest : List Char} {token : Token} :
      ofSymbol? c = some token → Slice [c] rest token

/-- What slices of letters spell. -/
def IsName (name : String) : Prop :=
  name ≠ "" ∧ name.toList.all Char.isAlpha

instance (name : String) : Decidable (IsName name) :=
  inferInstanceAs (Decidable (_ ∧ _))

/-- A text that begins at a position is cut into slices, and these are its lexemes. -/
inductive Sliced : Nat → List Char → List Lexeme → Prop where
  | done {position : Nat} : Sliced position [] [⟨.endOfInput, position⟩]
  | blank {position : Nat} {c : Char} {rest : List Char} {tokens : List Lexeme} :
      isBlank c → Sliced (position + 1) rest tokens → Sliced position (c :: rest) tokens
  | slice {position : Nat} {slice rest : List Char} {token : Token} {tokens : List Lexeme} :
      Slice slice rest token → Sliced (position + slice.length) rest tokens →
      Sliced position (slice ++ rest) (⟨token, position⟩ :: tokens)

/-! ### Cuts -/

/-- Characters of a text that stand together: a slice with its token, or blanks, which make
none. -/
structure Piece where
  text : List Char
  token? : Option Token

/-- A piece before the characters `rest`. Blanks, too, go on for as long as they can. -/
inductive Piece.Fits : Piece → List Char → Prop where
  | blanks {run rest : List Char} :
      run ≠ [] → (∀ c ∈ run, isBlank c) → (∀ c ∈ rest.head?, ¬ isBlank c) →
      Fits ⟨run, none⟩ rest
  | slice {slice rest : List Char} {token : Token} :
      Slice slice rest token → Fits ⟨slice, some token⟩ rest

/-- The characters of pieces that follow each other. -/
def written (pieces : List Piece) : List Char :=
  pieces.flatMap Piece.text

/-- Pieces that follow each other before the characters `rest`, each of them as long as its
class reaches. -/
def Cut : List Piece → List Char → Prop
  | [], _ => True
  | piece :: pieces, rest => piece.Fits (written pieces ++ rest) ∧ Cut pieces rest

/-- No piece begins a text. -/
def Stuck (text : List Char) : Prop :=
  ∀ (piece : Piece) rest, text = piece.text ++ rest → ¬ piece.Fits rest

/-- The lexemes of pieces, the first of which begins at `position`. Positions count bytes. -/
def lexemesOf (position : Nat) : List Piece → List Lexeme
  | [] => [⟨.endOfInput, position⟩]
  | piece :: pieces =>
    (piece.token?.map (⟨·, position⟩)).toList ++
      lexemesOf (position + (String.ofList piece.text).utf8ByteSize) pieces

/-- Why no piece begins with `c` before `rest`: the whole run of digits and points if a numeral
should begin there, or else the character. -/
def obstacle (c : Char) (rest : List Char) : ScanError.Cause :=
  if startsNumeral c rest then
    .malformedNumber (String.ofList (c :: rest.takeWhile inNumeral))
  else .invalidCharacter c

end Calculator.Token
