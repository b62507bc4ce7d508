import Calculator.Operator

/-!
Evaluated expressions.

A `Tree` is what a statement becomes: every node has a value and the position of the
token that stands for it. `Tree.rows` lists the nodes in preorder with their depths.
-/

namespace Calculator

/-- An evaluated expression. Parentheses leave no node. -/
inductive Tree where
  | number (value : Float) (position : Nat)
  | reference (name : String) (value : Float) (position : Nat)
  | assignment (name : String) (right : Tree) (value : Float) (position : Nat)
  | negation (operand : Tree) (value : Float) (position : Nat)
  | operation (operator : Operator) (left right : Tree) (value : Float) (position : Nat)
  | call (name : String) (arguments : List Tree) (value : Float) (position : Nat)

/-- What a node is, apart from its value, its position and its children. -/
inductive Kind where
  | number
  | reference (name : String)
  | assignment (name : String)
  | negation
  | operation (operator : Operator)
  | call (name : String)
deriving DecidableEq, Repr

/-- A node of a tree with its depth below the root. -/
structure Row where
  depth : Nat
  kind : Kind
  value : Float
  position : Nat

namespace Tree

/-- What the root is. -/
def kind : Tree → Kind
  | .number _ _ => .number
  | .reference name _ _ => .reference name
  | .assignment name _ _ _ => .assignment name
  | .negation _ _ _ => .negation
  | .operation op _ _ _ _ => .operation op
  | .call name _ _ _ => .call name

/-- The value of the root. -/
def value : Tree → Float
  | .number value _ | .reference _ value _ | .assignment _ _ value _
  | .negation _ value _ | .operation _ _ _ value _ | .call _ _ value _ => value

/-- The position of the root. -/
def position : Tree → Nat
  | .number _ position | .reference _ _ position | .assignment _ _ _ position
  | .negation _ _ position | .operation _ _ _ _ position | .call _ _ _ position => position

/-- The parts of the root, in the order in which they are written. -/
def children : Tree → List Tree
  | .number _ _ | .reference _ _ _ => []
  | .assignment _ right _ _ => [right]
  | .negation operand _ _ => [operand]
  | .operation _ left right _ _ => [left, right]
  | .call _ arguments _ _ => arguments

/-! ### The nodes in preorder -/

mutual

/-- The nodes of a tree in preorder, the root at the given depth. -/
def rows (depth : Nat) : Tree → List Row
  | .number value position => [⟨depth, .number, value, position⟩]
  | .reference name value position => [⟨depth, .reference name, value, position⟩]
  | .assignment name right value position =>
    ⟨depth, .assignment name, value, position⟩ :: right.rows (depth + 1)
  | .negation operand value position =>
    ⟨depth, .negation, value, position⟩ :: operand.rows (depth + 1)
  | .operation op left right value position =>
    ⟨depth, .operation op, value, position⟩ ::
      (left.rows (depth + 1) ++ right.rows (depth + 1))
  | .call name arguments value position =>
    ⟨depth, .call name, value, position⟩ :: rowsOfList (depth + 1) arguments

/-- The nodes of several trees, one tree after the other. -/
def rowsOfList (depth : Nat) : List Tree → List Row
  | [] => []
  | tree :: trees => tree.rows depth ++ rowsOfList depth trees

end

/-- The root comes before its parts. -/
theorem rows_eq (tree : Tree) (depth : Nat) :
    tree.rows depth = ⟨depth, tree.kind, tree.value, tree.position⟩ ::
      rowsOfList (depth + 1) tree.children := by
  cases tree <;> simp [rows, rowsOfList, kind, value, position, children]

theorem mem_rowsOfList {row : Row} {depth : Nat} {trees : List Tree} :
    row ∈ rowsOfList depth trees ↔ ∃ tree ∈ trees, row ∈ tree.rows depth := by
  induction trees with
  | nil => simp [rowsOfList]
  | cons tree trees ih => simp [rowsOfList, ih]

/-! ### Equality

Values are compared as numbers: an undefined value differs from itself, and the two
zeros are equal. -/

mutual

/-- Whether two trees have the same nodes, with equal values and positions. -/
def agrees : Tree → Tree → Bool
  | .number v p, .number w q => v == w && p == q
  | .reference m v p, .reference n w q => m == n && v == w && p == q
  | .assignment m s v p, .assignment n t w q =>
    m == n && s.agrees t && v == w && p == q
  | .negation s v p, .negation t w q => s.agrees t && v == w && p == q
  | .operation f s s' v p, .operation g t t' w q =>
    f == g && s.agrees t && s'.agrees t' && v == w && p == q
  | .call m ss v p, .call n ts w q => m == n && agreesList ss ts && v == w && p == q
  | _, _ => false

/-- Whether two lists hold trees that agree one by one. -/
def agreesList : List Tree → List Tree → Bool
  | [], [] => true
  | s :: ss, t :: ts => s.agrees t && agreesList ss ts
  | _, _ => false

end

end Tree

end Calculator
