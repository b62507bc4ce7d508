import Calculator.Token.Scan
import Calculator.Tree

/-!
The same words at other places.

`relocate` changes the positions of a tree or of a token, and nothing else: not the values, not
the names, not the order. Of a text that cannot be scanned it changes where that fails.
-/

namespace Calculator

/-- A token at another place. -/
def Lexeme.relocate (move : Nat → Nat) (lexeme : Lexeme) : Lexeme :=
  { lexeme with position := move lexeme.position }

/-- The same obstacle at another place. -/
def ScanError.relocate (move : Nat → Nat) (e : ScanError) : ScanError :=
  { e with position := move e.position }

/-- A node at another place. -/
def Row.relocate (move : Nat → Nat) (row : Row) : Row :=
  { row with position := move row.position }

namespace Tree

mutual

/-- A tree with all its positions changed. -/
def relocate (move : Nat → Nat) : Tree → Tree
  | .number value p => .number value (move p)
  | .reference name value p => .reference name value (move p)
  | .assignment name right value p => .assignment name (right.relocate move) value (move p)
  | .negation operand value p => .negation (operand.relocate move) value (move p)
  | .operation op left right value p =>
    .operation op (left.relocate move) (right.relocate move) value (move p)
  | .call name arguments value p => .call name (relocateList move arguments) value (move p)

/-- Several trees with all their positions changed. -/
def relocateList (move : Nat → Nat) : List Tree → List Tree
  | [] => []
  | tree :: trees => tree.relocate move :: relocateList move trees

end

@[simp] theorem value_relocate (move : Nat → Nat) (tree : Tree) :
    (tree.relocate move).value = tree.value := by
  cases tree <;> simp only [relocate, value]

mutual

@[simp] theorem relocate_id (tree : Tree) : tree.relocate id = tree := by
  cases tree with
  | number | reference => rfl
  | assignment name right | negation operand =>
    simp [relocate, relocate_id]
  | operation op left right => simp [relocate, relocate_id left, relocate_id right]
  | call name arguments => simp [relocate, relocateList_id arguments]

@[simp] theorem relocateList_id (trees : List Tree) : relocateList id trees = trees := by
  cases trees with
  | nil => rfl
  | cons tree trees => simp [relocateList, relocate_id tree, relocateList_id trees]

end

end Tree

end Calculator
