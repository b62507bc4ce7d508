import Calculator.Proofs.Numeral
import Calculator.Proofs.Rows
import Calculator.Token.Slices
import Calculator.Tree.Outline

/-!
What an outline tells of its tree.

An outline has a line for each node (`toList_outline`), and what it is indented by is the depth of
the node. The rest of the line is words with single spaces between them, which neither names nor
values contain, so the line tells the kind of the node and its value (`Kind.line_inj`). Outlines
that are equal therefore belong to trees with the same nodes at the same depths, which are the
same trees at other positions (`outline_eq_iff`).
-/

namespace Calculator

open Token (isBlank IsName)

variable {kind kind' : Kind} {value value' : Float} {row row' : Row} {indent : String}
  {tree a b : Tree} {depth : Nat}

/-! ### Lines -/

theorem mem_of_mem_intercalate {c : Char} {separator : List Char} {texts : List (List Char)}
    (mem : c ∈ separator.intercalate texts) : c ∈ separator ∨ ∃ text ∈ texts, c ∈ text := by
  induction texts with
  | nil => cases mem
  | cons text texts ih =>
    by_cases last : texts = []
    · subst last
      rw [List.intercalate_singleton] at mem
      exact .inr ⟨text, List.mem_singleton_self text, mem⟩
    · rw [List.intercalate_cons_of_ne_nil last, List.mem_append, List.mem_append] at mem
      rcases mem with (mem | mem) | mem
      · exact .inr ⟨text, List.mem_cons_self, mem⟩
      · exact .inl mem
      · exact (ih mem).imp_right fun ⟨text, found, mem⟩ => ⟨text, List.mem_cons_of_mem _ found, mem⟩

namespace Kind

/-- The words of a line, up to the value. -/
def words : Kind → List String
  | .number => ["Number"]
  | .reference name => ["Variable", name, "="]
  | .assignment name => ["Assignment", name, "="]
  | .negation => ["UnaryOp", "-", "="]
  | .operation .impliedMul => ["BinaryOp", "*", "(implied)", "="]
  | .operation op => ["BinaryOp", op.symbol, "="]
  | .call name => ["FunctionCall", name, "="]

/-- The name that a node has. -/
def name? : Kind → Option String
  | .reference name | .assignment name | .call name => some name
  | .number | .negation | .operation _ => none

/-- The name of a node is letters. -/
def IsNamed : Kind → Prop
  | .reference name | .assignment name | .call name => IsName name
  | _ => True

instance : DecidablePred IsNamed
  | .reference name | .assignment name | .call name => inferInstanceAs (Decidable (IsName name))
  | .number | .negation | .operation _ => inferInstanceAs (Decidable True)

theorem line_eq (kind : Kind) (value : Float) :
    kind.line value = " ".intercalate (kind.words ++ [Numeral.write value]) := by
  -- As long as the text of the value is known, its evaluation is tried.
  unfold line
  generalize Numeral.write value = text
  rw [← String.toList_inj]
  cases kind with
  | operation op => cases op <;> simp [words, Operator.symbol]
  | _ => simp [words]

theorem words_injective (same : kind.words = kind'.words) : kind = kind' := by
  cases kind with
  | operation op =>
    cases kind' with
    | operation op' =>
      cases op <;> cases op' <;> first | rfl | simp [words, Operator.symbol] at same
    | _ => cases op <;> simp [words] at same
  | _ =>
    cases kind' with
    | operation op' => cases op' <;> simp [words] at same
    | _ => first | rfl | simp_all [words]

theorem not_isBlank_of_words (named : kind.IsNamed) :
    ∀ word ∈ kind.words, ∀ c ∈ word.toList, ¬ isBlank c := by
  have letters {name : String} (named : IsName name) : ∀ c ∈ name.toList, ¬ isBlank c :=
    fun c mem => Token.class_of_isAlpha (List.all_eq_true.mp named.2 c mem)
  cases kind with
  | number | negation => simp [words, isBlank]
  | reference name | assignment name | call name =>
    simpa [words, isBlank] using letters named
  | operation op => cases op <;> simp [words, Operator.symbol, isBlank]

end Kind

theorem Numeral.not_isBlank_of_write (finite : value.isFinite) :
    ∀ c ∈ (Numeral.write value).toList, ¬ isBlank c := by
  intro c mem
  rcases Numeral.mem_write finite c mem with rfl | numeral
  · decide
  · exact (Token.class_of_inNumeral (by simpa [Token.inNumeral] using numeral)).1

theorem Numeral.newline_notMem_write (x : Float) : '\n' ∉ (Numeral.write x).toList := by
  cases form : Form.ofFloat x with
  | notANumber => simp [Numeral.write, form]
  | infinite negative => cases negative <;> simp [Numeral.write, form, Numeral.sign]
  | finite negative m =>
    have digits : '\n' ∉ m.shortest.plain := by
      intro newline
      exact absurd ((Numeral.isPlain_plain _).mem '\n' newline) (by decide)
    rw [Numeral.write, form, String.toList_append, String.toList_ofList]
    cases negative <;> simp [Numeral.toList_sign, digits]

namespace Kind

/-- What a line is made of, words and the value, has no blanks. -/
theorem not_isBlank_of_line (named : kind.IsNamed) (finite : value.isFinite) :
    ∀ word ∈ (kind.words ++ [Numeral.write value]).map String.toList, ∀ c ∈ word, ¬ isBlank c := by
  simp only [List.map_append, List.forall_mem_append, List.forall_mem_map,
    List.forall_mem_singleton]
  exact ⟨not_isBlank_of_words named, Numeral.not_isBlank_of_write finite⟩

theorem splitOn_line (named : kind.IsNamed) (finite : value.isFinite) :
    (kind.line value).toList.splitOn ' ' =
      (kind.words ++ [Numeral.write value]).map String.toList := by
  rw [line_eq, String.toList_intercalate]
  refine List.splitOn_intercalate ' ' (fun word mem space => ?_) (by simp)
  exact not_isBlank_of_line named finite word mem ' ' space rfl

/-- A line tells what the node is, and its value. -/
theorem line_inj (named : kind.IsNamed) (named' : kind'.IsNamed) (finite : value.isFinite)
    (finite' : value'.isFinite) (same : kind.line value = kind'.line value') :
    kind = kind' ∧ value = value' := by
  have split := splitOn_line named finite
  rw [same, splitOn_line named' finite'] at split
  have parts := List.map_injective_iff.mpr (fun _ _ => String.toList_inj.mp) split
  obtain ⟨words, writes⟩ := List.append_inj' parts rfl
  exact ⟨(words_injective words).symm,
    (Numeral.write_injective finite' finite (List.singleton_inj.mp writes)).symm⟩

theorem IsNamed.newline_notMem (named : kind.IsNamed) :
    ∀ name ∈ kind.name?, '\n' ∉ name.toList := by
  have letters {name : String} (named : IsName name) : '\n' ∉ name.toList := fun newline =>
    Token.class_of_isAlpha (List.all_eq_true.mp named.2 '\n' newline) rfl
  cases kind with
  | number | negation | operation => exact nofun
  | reference | assignment | call =>
    rintro name ⟨⟩
    exact letters named

theorem newline_notMem_words (names : ∀ name ∈ kind.name?, '\n' ∉ name.toList) :
    ∀ word ∈ kind.words, '\n' ∉ word.toList := by
  cases kind with
  | number | negation => decide
  | operation op => cases op <;> decide
  | reference name | assignment name | call name =>
    have inside := names name rfl
    simp [words, inside]

/-- A line stays one line, unless its name contains the end of a line. -/
theorem newline_notMem_line (names : ∀ name ∈ kind.name?, '\n' ∉ name.toList) :
    '\n' ∉ (kind.line value).toList := by
  rw [line_eq, String.toList_intercalate]
  intro newline
  rcases mem_of_mem_intercalate newline with space | ⟨_, mem, newline⟩
  · cases List.mem_singleton.mp space
  · obtain ⟨word, isWord, rfl⟩ := List.mem_map.mp mem
    rcases List.mem_append.mp isWord with isWord | isValue
    · exact newline_notMem_words names word isWord newline
    · rw [List.mem_singleton.mp isValue] at newline
      exact Numeral.newline_notMem_write value newline

theorem head?_line : ∀ c ∈ (kind.line value).toList.head?, ¬ decide (c = ' ') := by
  unfold line
  generalize Numeral.write value = text
  cases kind with
  | operation op => cases op <;> simp [Operator.symbol]
  | _ => simp

end Kind

/-! ### Rows -/

/-- The text of a row, without the end of the line. -/
def Row.written (indent : String) (row : Row) : List Char :=
  indent.toList ++ (List.replicate (2 * row.depth) ' ' ++ (row.kind.line row.value).toList)

theorem Row.written_inj (named : row.kind.IsNamed) (named' : row'.kind.IsNamed)
    (finite : row.value.isFinite) (finite' : row'.value.isFinite)
    (same : row.written indent = row'.written indent) :
    row.relocate (fun _ => 0) = row'.relocate (fun _ => 0) := by
  have same := List.append_cancel_left same
  -- No line begins with a space, so the spaces in front of it can be counted.
  have spaces (n : ℕ) : ∀ c ∈ List.replicate n ' ', decide (c = ' ') := by simp
  have depth := congrArg (List.takeWhile fun c => decide (c = ' ')) same
  have line := congrArg (List.dropWhile fun c => decide (c = ' ')) same
  rw [Token.takeWhile_run (spaces _) Kind.head?_line,
    Token.takeWhile_run (spaces _) Kind.head?_line] at depth
  rw [Token.dropWhile_run (spaces _) Kind.head?_line,
    Token.dropWhile_run (spaces _) Kind.head?_line] at line
  have depth := congrArg List.length depth
  rw [List.length_replicate, List.length_replicate] at depth
  obtain ⟨kind, value⟩ := Kind.line_inj named named' finite finite' (String.toList_inj.mp line)
  rw [Row.relocate, Row.relocate, kind, value, Nat.eq_of_mul_eq_mul_left Nat.two_pos depth]

theorem Row.splitOn_flatMap_written {rows : List Row}
    (inside : ∀ row ∈ rows, '\n' ∉ row.written indent) :
    (rows.flatMap fun row => row.written indent ++ ['\n']).splitOn '\n' =
      rows.map (Row.written indent) ++ [[]] := by
  induction rows with
  | nil => rfl
  | cons row rows ih =>
    obtain ⟨first, inside⟩ := List.forall_mem_cons.mp inside
    rw [List.flatMap_cons, List.append_assoc, List.singleton_append,
      List.splitOn_append_cons_self_of_not_mem first, ih inside, List.map_cons, List.cons_append]

namespace Tree

theorem outline_eq (indent : String) (tree : Tree) :
    tree.outline indent = indent ++ tree.kind.line tree.value ++ "\n" ++
      outlineOfList (indent ++ indentStep) tree.children := by
  cases tree <;> simp [outline, outlineOfList, kind, value, children, String.append_assoc]

theorem toList_outlineOfList {inner : String} (trees : List Tree)
    (deep : inner.toList = indent.toList ++ List.replicate (2 * depth) ' ') :
    (outlineOfList inner trees).toList =
      (rowsOfList depth trees).flatMap fun row => row.written indent ++ ['\n'] := by
  induction trees using forest_induction generalizing depth inner with
  | nil => rfl
  | cons tree trees ihc iht =>
    have deeper : (inner ++ indentStep).toList =
        indent.toList ++ List.replicate (2 * (depth + 1)) ' ' := by
      rw [String.toList_append, deep, List.append_assoc, Nat.mul_succ, List.replicate_add]
      rfl
    rw [outlineOfList, outline_eq, rowsOfList_cons, List.flatMap_cons, List.flatMap_append]
    simp only [String.toList_append, ihc deeper, iht deep, Row.written, deep]
    simp

theorem toList_outline (indent : String) (tree : Tree) :
    (tree.outline indent).toList =
      (tree.rows 0).flatMap fun row => row.written indent ++ ['\n'] := by
  have one : (outlineOfList indent [tree]).toList =
      (rowsOfList 0 [tree]).flatMap fun row => row.written indent ++ ['\n'] :=
    toList_outlineOfList [tree] (List.append_nil _).symm
  simpa [outlineOfList, rowsOfList] using one

/-- Every node has a finite value, and its name, if it has one, is letters. -/
def IsPrintable (tree : Tree) : Prop :=
  ∀ row ∈ tree.rows 0, row.kind.IsNamed ∧ row.value.isFinite

instance : DecidablePred IsPrintable := fun tree =>
  inferInstanceAs (Decidable (∀ row ∈ tree.rows 0, row.kind.IsNamed ∧ row.value.isFinite))

theorem outline_relocate (indent : String) (move : Nat → Nat) (tree : Tree) :
    (tree.relocate move).outline indent = tree.outline indent := by
  rw [← String.toList_inj, toList_outline, toList_outline, rows_relocate, List.flatMap_map]
  rfl

/-- The lines of an outline, if nothing in it contains the end of a line. -/
theorem splitOn_outline_of_names
    (names : ∀ row ∈ tree.rows 0, ∀ name ∈ row.kind.name?, '\n' ∉ name.toList)
    (newline : '\n' ∉ indent.toList) :
    (tree.outline indent).toList.splitOn '\n' = (tree.rows 0).map (Row.written indent) ++ [[]] := by
  rw [toList_outline]
  refine Row.splitOn_flatMap_written ?_
  intro row mem
  simp [Row.written, newline, Kind.newline_notMem_line (names row mem)]

theorem splitOn_outline (printable : tree.IsPrintable) (newline : '\n' ∉ indent.toList) :
    (tree.outline indent).toList.splitOn '\n' = (tree.rows 0).map (Row.written indent) ++ [[]] :=
  splitOn_outline_of_names (fun row mem => (printable row mem).1.newline_notMem) newline

theorem map_relocate_of_map_written {rows rows' : List Row}
    (printable : ∀ row ∈ rows, row.kind.IsNamed ∧ row.value.isFinite)
    (printable' : ∀ row ∈ rows', row.kind.IsNamed ∧ row.value.isFinite)
    (same : rows.map (Row.written indent) = rows'.map (Row.written indent)) :
    rows.map (Row.relocate fun _ => 0) = rows'.map (Row.relocate fun _ => 0) := by
  induction rows generalizing rows' with
  | nil => rw [List.map_eq_nil_iff.mp same.symm]
  | cons row rows ih =>
    cases rows' with
    | nil => cases same
    | cons row' rows' =>
      obtain ⟨first, printable⟩ := List.forall_mem_cons.mp printable
      obtain ⟨first', printable'⟩ := List.forall_mem_cons.mp printable'
      obtain ⟨line, lines⟩ := List.cons.inj same
      rw [List.map_cons, List.map_cons, ih printable printable' lines,
        Row.written_inj first.1 first'.1 first.2 first'.2 line]

/-- The outline of a tree tells it, but for the positions of its nodes: the kinds and names of the
nodes, the operators, the values with their signs, and the parts of each node in their order. -/
theorem outline_eq_iff (printable : a.IsPrintable) (printable' : b.IsPrintable)
    (newline : '\n' ∉ indent.toList) :
    a.outline indent = b.outline indent ↔
      a.relocate (fun _ => 0) = b.relocate (fun _ => 0) := by
  constructor
  · intro same
    have lines := splitOn_outline printable newline
    rw [same, splitOn_outline printable' newline] at lines
    have rows := map_relocate_of_map_written printable' printable (List.append_cancel_right lines)
    rw [← rows_relocate, ← rows_relocate] at rows
    exact (rows_injective rows).symm
  · intro same
    rw [← outline_relocate indent (fun _ => 0) a, same, outline_relocate]

/-- The second argument of one call, and the argument of the call before it. -/
theorem outline_eq_iff_nested :
    (Tree.call "f" [.call "g" [] 1.0 2, .number (-0.0) 5] 1.0 0).outline "| " ≠
      (Tree.call "f" [.call "g" [.number (-0.0) 5] 1.0 2] 1.0 0).outline "| " := by
  intro same
  have trees := (outline_eq_iff (by decide +kernel) (by decide +kernel) (by decide)).mp same
  simp [relocate, relocateList] at trees

end Tree

end Calculator
