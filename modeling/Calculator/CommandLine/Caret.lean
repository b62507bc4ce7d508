/-!
Pointing at a place in a statement: the statement on one line, and a caret below the
place on the next.
-/

namespace Calculator.CommandLine

/-- The number of characters in the first `bytes` bytes of a text, if a character
ends there. -/
def charactersIn? : List Char → Nat → Option Nat
  | _, 0 => some 0
  | [], _ + 1 => none
  | c :: rest, bytes =>
    if bytes < c.utf8Size then none
    else (charactersIn? rest (bytes - c.utf8Size)).map (· + 1)

/-- The column of a byte position. A position within a character or behind the end
stands for itself. -/
def column (text : String) (position : Nat) : Nat :=
  (charactersIn? text.toList position).getD position

/-- A statement with a caret below a byte position. -/
def pointer (text : String) (position : Nat) : String :=
  "  " ++ text ++ "\n  " ++ String.ofList (List.replicate (column text position) ' ') ++ "^"

end Calculator.CommandLine
