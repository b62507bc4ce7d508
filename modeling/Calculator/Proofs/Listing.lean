import Calculator.Proofs.Outline

/-!
The outline of a tree is the listing of its nodes.

An outline is written from the root down, and what a node is indented by grows on the way. The same
text comes from the nodes in preorder, where nothing is left of the tree but their depths
(`outline_eq_join`): each node has an entry of its own, and the entries are the lines of the outline
unless a name or the indent contains the end of a line.
-/

namespace Calculator

variable {row : Row} {indent : String} {depth : Nat}

/-! ### Entries -/

/-- The entry of a node, without the end of the line. -/
def Row.entry (indent : String) (row : Row) : String :=
  indent ++ String.join (List.replicate row.depth Tree.indentStep) ++ row.kind.line row.value

theorem toList_join_replicate_indentStep (depth : Nat) :
    (String.join (List.replicate depth Tree.indentStep)).toList =
      List.replicate (2 * depth) ' ' := by
  induction depth with
  | zero => rfl
  | succ depth ih =>
    rw [List.replicate_succ, String.join_cons, String.toList_append, ih, Nat.mul_succ,
      Nat.add_comm, List.replicate_add]
    rfl

theorem Row.toList_entry : (row.entry indent).toList = row.written indent := by
  rw [Row.entry, Row.written, String.toList_append, String.toList_append,
    toList_join_replicate_indentStep, List.append_assoc]

namespace Tree

/-! ### The number of nodes -/

mutual

/-- The number of nodes of a tree. -/
def size : Tree → Nat
  | .number _ _ | .reference _ _ _ => 1
  | .assignment _ right _ _ => right.size + 1
  | .negation operand _ _ => operand.size + 1
  | .operation _ left right _ _ => left.size + right.size + 1
  | .call _ arguments _ _ => sizeOfList arguments + 1

/-- The number of nodes of several trees. -/
def sizeOfList : List Tree → Nat
  | [] => 0
  | tree :: trees => tree.size + sizeOfList trees

end

theorem size_eq (tree : Tree) : tree.size = sizeOfList tree.children + 1 := by
  cases tree <;> rfl

theorem length_rowsOfList (trees : List Tree) :
    (rowsOfList depth trees).length = sizeOfList trees := by
  induction trees using forest_induction generalizing depth with
  | nil => rfl
  | cons tree trees ihc iht =>
    rw [rowsOfList_cons, List.length_cons, List.length_append, ihc, iht, sizeOfList, size_eq]
    omega

theorem length_rows (tree : Tree) : (tree.rows depth).length = tree.size := by
  rw [rows_eq, List.length_cons, length_rowsOfList, size_eq]

/-! ### The listing -/

/-- The outline of any tree, under any indent, lists the nodes in preorder: for each node the
indent, as many steps as the node is deep, the words for it with its value, and the end of the
line. There are as many entries as nodes; and unless the indent or a name contains the end of a
line, the entries are the lines. -/
theorem outline_eq_join (indent : String) (tree : Tree) :
    tree.outline indent = String.join ((tree.rows 0).map fun row => row.entry indent ++ "\n") ∧
    (tree.rows 0).length = tree.size ∧
    ('\n' ∉ indent.toList → (∀ row ∈ tree.rows 0, ∀ name ∈ row.kind.name?, '\n' ∉ name.toList) →
      (tree.outline indent).toList.splitOn '\n' =
        (tree.rows 0).map (fun row => (row.entry indent).toList) ++ [[]]) := by
  refine ⟨?_, length_rows tree, ?_⟩
  · rw [← String.toList_inj, toList_outline, String.toList_join, List.flatMap_map]
    refine List.flatMap_congr ?_
    intro row mem
    rw [String.toList_append, Row.toList_entry]
    rfl
  · intro newline names
    simp only [Row.toList_entry]
    exact splitOn_outline_of_names names newline

/-- A call without an argument and one with two, in a sum whose value is undefined. -/
theorem outline_eq_join_calls :
    let tree := Tree.operation .add (.call "f" [] 1.0 0)
      (.call "g h" [.number 2.0 6, .reference "" (-0.0) 9] (0.0 / 0.0) 4) (0.0 / 0.0) 3
    tree.size = 5 ∧ (tree.outline "> ").toList.splitOn '\n' = [
      "> BinaryOp + = NaN".toList, ">   FunctionCall f = 1".toList,
      ">   FunctionCall g h = NaN".toList, ">     Number 2".toList,
      ">     Variable  = -0".toList, []] := by
  intro tree
  obtain ⟨-, count, lines⟩ := outline_eq_join "> " tree
  refine ⟨count.symm.trans rfl, (lines (by decide) ?_).trans ?_⟩
  · decide
  · decide +kernel

end Tree

end Calculator
