import Calculator.Tree.Relocation

/-!
What the nodes of a tree tell.

The depths of the nodes, in preorder, tell where the parts of a node end: at the next node that is
no deeper than itself. So the nodes tell the tree (`rows_injective`). What holds of the parts of
trees, however many there are, is shown once for lists of trees (`forest_induction`).
-/

namespace Calculator.Tree

variable {depth : Nat} {rest rest' : List Row}

/-! ### Induction -/

section Induction

variable {motive : List Tree → Prop} (nil : motive [])
  (cons : ∀ tree trees, motive tree.children → motive trees → motive (tree :: trees))

include nil cons

mutual

theorem children_induction (tree : Tree) : motive tree.children := by
  cases tree with
  | number | reference => exact nil
  | assignment name right => exact cons right [] (children_induction right) nil
  | negation operand => exact cons operand [] (children_induction operand) nil
  | operation op left right =>
    exact cons left [right] (children_induction left) (cons right [] (children_induction right) nil)
  | call name arguments => exact forest_induction arguments

/-- What holds of no trees, and of one more tree if it holds of its parts, holds of all lists of
trees. -/
theorem forest_induction (trees : List Tree) : motive trees := by
  cases trees with
  | nil => exact nil
  | cons tree trees => exact cons tree trees (children_induction tree) (forest_induction trees)

end

end Induction

/-! ### From the nodes to the tree -/

theorem eq_of_root {a b : Tree} (kind : a.kind = b.kind) (value : a.value = b.value)
    (position : a.position = b.position) (children : a.children = b.children) : a = b := by
  cases a <;> cases b <;> simp_all [Tree.kind, Tree.value, Tree.position, Tree.children]

theorem rowsOfList_cons (tree : Tree) (trees : List Tree) :
    rowsOfList depth (tree :: trees) = ⟨depth, tree.kind, tree.value, tree.position⟩ ::
      (rowsOfList (depth + 1) tree.children ++ rowsOfList depth trees) := by
  rw [rowsOfList, rows_eq, List.cons_append]

/-- Behind the parts of a node, the next one is no deeper than the node. -/
theorem depth_of_head? {trees : List Tree} (ends : ∀ row ∈ rest.head?, row.depth < depth) :
    ∀ row ∈ (rowsOfList depth trees ++ rest).head?, row.depth < depth + 1 := by
  cases trees with
  | nil => exact fun row mem => Nat.lt_succ_of_lt (ends row mem)
  | cons tree trees =>
    rw [rowsOfList_cons]
    rintro _ ⟨⟩
    exact Nat.lt_succ_self depth

theorem ne_rowsOfList_cons {tree : Tree} {trees : List Tree}
    (ends : ∀ row ∈ rest.head?, row.depth < depth) :
    rest ≠ rowsOfList depth (tree :: trees) ++ rest' := by
  rintro rfl
  rw [rowsOfList_cons] at ends
  exact absurd (ends _ rfl) (Nat.lt_irrefl depth)

/-- The trees of a list are the same if their nodes are and, behind them, a node follows that is
less deep. -/
theorem rowsOfList_append_inj {trees trees' : List Tree}
    (ends : ∀ row ∈ rest.head?, row.depth < depth) (ends' : ∀ row ∈ rest'.head?, row.depth < depth)
    (same : rowsOfList depth trees ++ rest = rowsOfList depth trees' ++ rest') :
    trees = trees' ∧ rest = rest' := by
  induction trees using forest_induction generalizing depth rest rest' trees' with
  | nil =>
    cases trees' with
    | nil => exact ⟨rfl, same⟩
    | cons tree' trees' => exact absurd same (ne_rowsOfList_cons ends)
  | cons tree trees ihc iht =>
    cases trees' with
    | nil => exact absurd same.symm (ne_rowsOfList_cons ends')
    | cons tree' trees' =>
      rw [rowsOfList_cons, rowsOfList_cons, List.cons_append, List.cons_append, List.append_assoc,
        List.append_assoc] at same
      -- The parts are one level down, and what follows them is at `depth` at most.
      obtain ⟨root, below⟩ := List.cons.inj same
      obtain ⟨children, later⟩ := ihc (depth_of_head? ends) (depth_of_head? ends') below
      obtain ⟨rfl, rest_eq⟩ := iht ends ends' later
      obtain ⟨-, kind, value, position⟩ := Row.mk.inj root
      exact ⟨congrArg (· :: trees) (eq_of_root kind value position children), rest_eq⟩

/-- The nodes in preorder, with their depths, tell the tree. -/
theorem rows_injective {a b : Tree} (same : a.rows depth = b.rows depth) : a = b := by
  have alone (tree : Tree) : rowsOfList depth [tree] ++ [] = tree.rows depth := by
    simp [rowsOfList]
  rw [← alone, ← alone] at same
  have none : ∀ row ∈ ([] : List Row).head?, row.depth < depth := by simp
  exact (List.cons.inj (rowsOfList_append_inj none none same).1).1

/-! ### Nodes at other places -/

theorem children_relocate (move : Nat → Nat) (tree : Tree) :
    (tree.relocate move).children = relocateList move tree.children := by
  cases tree <;> rfl

theorem rowsOfList_relocate (move : Nat → Nat) (trees : List Tree) :
    rowsOfList depth (relocateList move trees) =
      (rowsOfList depth trees).map (Row.relocate move) := by
  induction trees using forest_induction generalizing depth with
  | nil => rfl
  | cons tree trees ihc iht =>
    have kind : (tree.relocate move).kind = tree.kind := by cases tree <;> rfl
    have position : (tree.relocate move).position = move tree.position := by cases tree <;> rfl
    rw [relocateList, rowsOfList_cons, rowsOfList_cons, children_relocate, ihc, iht, kind, position,
      value_relocate, List.map_cons, List.map_append]
    rfl

theorem rows_relocate (move : Nat → Nat) (tree : Tree) :
    (tree.relocate move).rows depth = (tree.rows depth).map (Row.relocate move) := by
  have moved : rowsOfList depth (relocateList move [tree]) = _ := rowsOfList_relocate move [tree]
  simpa [relocateList, rowsOfList] using moved

end Calculator.Tree
