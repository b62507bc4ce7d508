import Calculator.Formula.Spelling
import Calculator.Proofs.Reading
import Calculator.Proofs.Stretch

/-!
Expressions that are put together from texts.

Where an expression stands in parentheses, wherever that is, it is scanned and read as it is alone:
a parenthesis ends every name and every numeral (`Token.Sliced.append`), and the assembly does not
look at positions, so the grammar derives the same expression from the moved tokens
(`exists_derives_of_evaluate`). An operation on such texts therefore has the values of their trees
as its operands, and its own value, or its fault, comes last (`execute_composed`).
-/

namespace Calculator

open Token

/-! ### Slices in front of other characters -/

namespace Token

variable {position : Nat} {c : Char} {slice rest text later : List Char} {token : Token}
  {tokens more : List Lexeme}

/-- The characters do not go on with a name or a numeral in front of them. -/
def Parts (later : List Char) : Prop :=
  ∀ c ∈ later.head?, ¬ c.isAlpha ∧ ¬ inNumeral c

theorem parts_symbol (made : ofSymbol? c = some token) (rest : List Char) : Parts (c :: rest) := by
  rintro _ ⟨⟩
  exact (class_of_ofSymbol? made).2

theorem Slice.extend (fits : Slice slice rest token) (parts : Parts later) :
    Slice slice (rest ++ later) token := by
  have next {p : Char → Bool} (stops : ∀ c ∈ rest.head?, ¬ p c) (stops' : ∀ c ∈ later.head?, ¬ p c) :
      ∀ c ∈ (rest ++ later).head?, ¬ p c := by
    cases rest with
    | nil => exact stops'
    | cons => exact stops
  cases fits with
  | name nonempty letters stops =>
    exact .name nonempty letters (next stops fun c mem => (parts c mem).1)
  | numeral begins digits stops made =>
    refine .numeral (startsNumeral_of_next begins stops) digits ?_ made
    exact next stops fun c mem => (parts c mem).2
  | symbol made => exact .symbol made

namespace Sliced

/-- Two texts are cut one after the other, if the second one does not go on with the last slice of
the first. -/
theorem append (sliced : Sliced position text tokens) (parts : Parts later)
    (after : Sliced (position + text.length) later more) :
    Sliced position (text ++ later) (beforeEnd tokens ++ more) := by
  induction sliced with
  | done => exact after
  | blank blank _ ih =>
    refine .blank blank (ih ?_)
    rwa [Nat.add_right_comm, Nat.add_assoc]
  | slice fits _ ih =>
    rw [beforeEnd_cons fits.plain.2, List.append_assoc]
    refine .slice (fits.extend parts) (ih ?_)
    rwa [Nat.add_assoc, ← List.length_append]

theorem symbol (made : ofSymbol? c = some token) (sliced : Sliced (position + 1) text tokens) :
    Sliced position (c :: text) (⟨token, position⟩ :: tokens) :=
  .slice (.symbol made) sliced

end Sliced

end Token

/-! ### Expressions in parentheses -/

section Enclosed

variable {text : String} {bindings : Bindings} {tree : Tree} {position : Nat}

theorem isAssignment_relocate (move : Nat → Nat) (tree : Tree) :
    (tree.relocate move).isAssignment = tree.isAssignment := by
  cases tree <;> simp only [Tree.relocate, Tree.isAssignment]

/-- The tokens of an expression are one at any other place, and their tree is the same there. -/
theorem exists_derives_of_evaluate {tokens : List Lexeme} (scanned : scan text = .ok tokens)
    (evaluated : evaluateTokens tokens bindings = .ok tree) (expression : tree.isAssignment = false)
    (distance : Nat) :
    ∃ f, Derives .sum f (beforeEnd (tokens.map (Lexeme.relocate (· + distance)))) ∧
      f.build (Tree.builder bindings) = .ok (tree.relocate (· + distance)) := by
  have sides := Correspondence.matches_evaluateTokens (· + distance) (fun _ => True)
    (fun _ _ => trivial) (fun _ _ _ _ => Eq.refl (bindings.get? _))
    (.inr ⟨_, (closed_of_scan scanned).endOfInput_mem, rfl⟩)
  rw [evaluated] at sides
  generalize moved : evaluateTokens (tokens.map (Lexeme.relocate (· + distance))) bindings = answer
    at sides
  cases sides with
  | ok related =>
    subst related
    obtain ⟨f, derives, built⟩ := exists_derivesStatement_of_assembleStatement moved
    refine ⟨f, ?_, built⟩
    generalize beforeEnd _ = used at derives
    cases derives with
    | expression derives => exact derives
    | assignment =>
      obtain ⟨right, -, made⟩ := bind_eq_ok.mp built
      have assigned := isAssignment_relocate (· + distance) tree
      rw [← Except.ok.inj made, expression] at assigned
      cases assigned

/-- An expression in parentheses is scanned and read within any text. -/
theorem exists_enclosed (evaluated : evaluate text bindings = .ok tree)
    (expression : tree.isAssignment = false) {later : List Char} {more : List Lexeme}
    (after : Sliced (position + text.utf8ByteSize + 2) later more) :
    ∃ f inner closed,
      Sliced position ('(' :: text.toList ++ ')' :: later)
        (⟨.openParen, position⟩ :: inner ++ ⟨.closeParen, closed⟩ :: more) ∧
      Derives .sum f inner ∧
      f.build (Tree.builder bindings) = .ok (tree.relocate (· + (position + 1))) := by
  obtain ⟨tokens, scanned, evaluated⟩ := evaluate_eq_ok.mp evaluated
  obtain ⟨f, derives, built⟩ :=
    exists_derives_of_evaluate scanned evaluated expression (position + 1)
  refine ⟨f, _, position + text.utf8ByteSize + 1, ?_, derives, built⟩
  have moved : Sliced (0 + (position + 1)) text.toList
      (tokens.map (Lexeme.relocate (· + (position + 1)))) :=
    Sliced.add_iff.mpr ⟨tokens, sliced_of_scan scanned, rfl⟩
  rw [Nat.zero_add] at moved
  refine .symbol rfl (moved.append (parts_symbol rfl later) ?_)
  rw [← utf8ByteSize_of_scan scanned, Nat.add_right_comm]
  exact .symbol rfl after

end Enclosed

/-! ### Operations -/

/-- What is written for an operator between its operands: for an implied product nothing. -/
def Operator.sign : Operator → String
  | .impliedMul => ""
  | op => op.symbol

/-- The answer of an operation at a position whose operands have their values: the node, or the
fault of the operation. -/
def Tree.valued (position : Nat) (value : Except Fault Float) (node : Float → Tree) :
    Except EvalError Tree :=
  (node <$> Fault.locate position value).mapError .parse

theorem locate_bind_pure (position : Nat) (value : Except Fault Float) (node : Float → Tree) :
    Fault.locate position (do return node (← value)) = node <$> Fault.locate position value := by
  cases value <;> rfl

/-- A text that is an expression has the answer of the walk over it, and writes nothing. -/
theorem execute_of_derives {text : String} {bindings : Bindings} {level : Level} {f : Formula}
    {used : List Lexeme} {endsAt : Nat}
    (sliced : Sliced 0 text.toList (used ++ [⟨.endOfInput, endsAt⟩]))
    (derives : Derives level f used) :
    execute text bindings = ((f.build (Tree.builder bindings)).mapError .parse, bindings) := by
  have ended : Ended [⟨.endOfInput, endsAt⟩] := by
    rintro _ ⟨⟩
    rfl
  have scanned : scan text = .ok (used ++ [⟨.endOfInput, endsAt⟩]) := sliced.scanFrom_eq_ok
  have expression : Derives .sum f (beforeEnd (used ++ [⟨.endOfInput, endsAt⟩])) := by
    rw [beforeEnd_append derives ended]
    exact .looser (Level.sum_le level) derives
  have evaluated : evaluate text bindings = (f.build (Tree.builder bindings)).mapError .parse := by
    rw [evaluate_of_scan scanned, evaluateTokens, assembleStatement_eq_build (.expression expression)]
  have reads : assigns ((f.build (Tree.builder bindings)).mapError EvalError.parse) = false := by
    cases built : f.build (Tree.builder bindings) with
    | error e => rfl
    | ok tree => exact (derives.spelledBy built).isAssignment_eq
  rw [execute, evaluated, after_of_not_assigns reads]

/-- The sign of an operator in front of a text. -/
theorem Operator.sliced_sign {op : Operator} {position : Nat} {rest : List Char}
    {tokens : List Lexeme} (explicit : op ≠ .impliedMul)
    (sliced : Sliced (position + op.sign.utf8ByteSize) rest tokens) :
    Sliced position (op.sign.toList ++ rest) (⟨.ofOperator op, position⟩ :: tokens) := by
  cases op with
  | impliedMul => exact absurd rfl explicit
  | _ => exact .symbol rfl sliced

namespace Function

variable (f : Function) {rest : List Char}

theorem isSome_ofName?_name : (ofName? f.name).isSome := by
  cases f <;> rfl

theorem length_name : f.name.toList.length = f.name.utf8ByteSize := by
  cases f <;> rfl

/-- The name of a function in front of a text. -/
theorem sliced_name {tokens : List Lexeme} (parts : Parts rest)
    (sliced : Sliced f.name.utf8ByteSize rest tokens) :
    Sliced 0 (f.name.toList ++ rest) (⟨.identifier f.name, 0⟩ :: tokens) := by
  have letters : ∀ c ∈ f.name.toList, c.isAlpha := by
    cases f <;> exact List.all_eq_true.mp rfl
  have name : Slice f.name.toList rest (.identifier (String.ofList f.name.toList)) :=
    .name (by cases f <;> decide) letters fun c mem => (parts c mem).1
  rw [String.ofList_toList] at name
  refine .slice name ?_
  rwa [Nat.zero_add, f.length_name]

end Function

section Operand

variable {s : String} {bindings : Bindings} {a : Tree}
  (left : evaluate s bindings = .ok a) (leftReads : a.isAssignment = false)

include left leftReads

theorem execute_group :
    execute ("(" ++ s ++ ")") bindings = (.ok (a.relocate (· + 1)), bindings) := by
  have done : Sliced (0 + s.utf8ByteSize + 2) [] [⟨.endOfInput, _⟩] := .done
  obtain ⟨f, inner, closed, sliced, derives, built⟩ := exists_enclosed left leftReads done
  have group : Derives .primary f (⟨.openParen, 0⟩ :: inner ++ [⟨.closeParen, closed⟩]) :=
    .group derives
  rw [execute_of_derives (by simpa using sliced) group, built]
  rfl

theorem execute_negation :
    execute ("-(" ++ s ++ ")") bindings =
      (Tree.valued 0 (negated a.value) fun value => .negation (a.relocate (· + 2)) value 0,
        bindings) := by
  have done : Sliced (1 + s.utf8ByteSize + 2) [] [⟨.endOfInput, _⟩] := .done
  obtain ⟨f, inner, closed, sliced, derives, built⟩ := exists_enclosed left leftReads done
  have negation : Derives .negation (.negation f 0)
      (⟨.minus, 0⟩ :: ⟨.openParen, 1⟩ :: inner ++ [⟨.closeParen, closed⟩]) :=
    .negation (Formula.derives_primary (.group derives))
  have whole : Sliced 0 ('-' :: '(' :: s.toList ++ [')']) _ := .symbol rfl sliced
  rw [execute_of_derives (by simpa using whole) negation, Formula.build, built, ok_bind]
  simp only [Tree.builder, Tree.value_relocate, locate_bind_pure, Tree.valued]

theorem execute_call (f : Function) :
    execute (f.name ++ "(" ++ s ++ ")") bindings =
      (Tree.valued 0 (call f.name [a.value]) fun value =>
        .call f.name [a.relocate (· + (f.name.utf8ByteSize + 1))] value 0, bindings) := by
  have done : Sliced (f.name.utf8ByteSize + s.utf8ByteSize + 2) [] [⟨.endOfInput, _⟩] := .done
  obtain ⟨g, inner, closed, sliced, derives, built⟩ := exists_enclosed left leftReads done
  have called : Derives .primary (.call f.name g 0) (⟨.identifier f.name, 0⟩ ::
      ⟨.openParen, f.name.utf8ByteSize⟩ :: inner ++ [⟨.closeParen, closed⟩]) :=
    .call derives
  have whole := f.sliced_name (parts_symbol rfl _) sliced
  have callable : Fault.locate 0 ((Tree.builder bindings).callable f.name) = .ok () := by
    simp only [Tree.builder, f.isSome_ofName?_name, if_true]
    rfl
  rw [execute_of_derives (by simpa using whole) called, Formula.build, callable, ok_bind, built,
    ok_bind]
  simp only [Tree.builder, Option.map_some, Option.toList_some, Tree.value_relocate,
    locate_bind_pure, Tree.valued]

end Operand

section Operands

variable {s r : String} {bindings : Bindings} {a b : Tree}
  (left : evaluate s bindings = .ok a) (right : evaluate r bindings = .ok b)
  (leftReads : a.isAssignment = false) (rightReads : b.isAssignment = false)

include left right leftReads rightReads

/-- Two expressions in parentheses, with the sign of an operator between them, or with none. -/
theorem exists_derives_operation (op : Operator) :
    ∃ f g used endsAt,
      Sliced 0 ("(" ++ s ++ ")" ++ op.sign ++ "(" ++ r ++ ")").toList
        (used ++ [⟨.endOfInput, endsAt⟩]) ∧
      Derives op.level (.operation op f g (s.utf8ByteSize + 2)) used ∧
      f.build (Tree.builder bindings) = .ok (a.relocate (· + 1)) ∧
      g.build (Tree.builder bindings) =
        .ok (b.relocate (· + (s.utf8ByteSize + op.sign.utf8ByteSize + 3))) := by
  have place : s.utf8ByteSize + op.sign.utf8ByteSize + 3 =
      s.utf8ByteSize + 2 + op.sign.utf8ByteSize + 1 := by omega
  have done : Sliced (s.utf8ByteSize + 2 + op.sign.utf8ByteSize + r.utf8ByteSize + 2) []
      [⟨.endOfInput, _⟩] := .done
  rw [place]
  obtain ⟨g, innerRight, closedRight, slicedRight, derivesRight, builtRight⟩ :=
    exists_enclosed right rightReads done
  have factor : Derives .primary g (⟨.openParen, s.utf8ByteSize + 2 + op.sign.utf8ByteSize⟩ ::
      innerRight ++ [⟨.closeParen, closedRight⟩]) :=
    .group derivesRight
  by_cases implied : op = .impliedMul
  · subst implied
    rw [← Nat.zero_add s.utf8ByteSize] at slicedRight
    obtain ⟨f, inner, closed, sliced, derives, built⟩ :=
      exists_enclosed left leftReads slicedRight
    have group : Derives .primary f (⟨.openParen, 0⟩ :: inner ++ [⟨.closeParen, closed⟩]) :=
      .group derives
    have product := Derives.impliedProduct rfl (Formula.derives_primary group)
      (Formula.derives_primary factor)
    refine ⟨f, g, _, s.utf8ByteSize + 2 + r.utf8ByteSize + 2, ?_, product, built, builtRight⟩
    simpa [Operator.sign] using sliced
  · have signed := Operator.sliced_sign implied slicedRight
    rw [← Nat.zero_add s.utf8ByteSize] at signed
    obtain ⟨f, inner, closed, sliced, derives, built⟩ := exists_enclosed left leftReads signed
    have group : Derives .primary f (⟨.openParen, 0⟩ :: inner ++ [⟨.closeParen, closed⟩]) :=
      .group derives
    have operation : Derives op.level (.operation op f g (s.utf8ByteSize + 2)) _ :=
      .operation (Formula.operator?_ofOperator implied) (Formula.derives_primary group)
        (Formula.derives_primary factor)
    refine ⟨f, g, _, s.utf8ByteSize + 2 + op.sign.utf8ByteSize + r.utf8ByteSize + 2, ?_, operation,
      built, builtRight⟩
    simpa using sliced

theorem execute_operation (op : Operator) :
    execute ("(" ++ s ++ ")" ++ op.sign ++ "(" ++ r ++ ")") bindings =
      (Tree.valued (s.utf8ByteSize + 2) (op.apply a.value b.value) fun value =>
        .operation op (a.relocate (· + 1))
          (b.relocate (· + (s.utf8ByteSize + op.sign.utf8ByteSize + 3))) value
          (s.utf8ByteSize + 2), bindings) := by
  obtain ⟨f, g, used, endsAt, sliced, derives, built, builtRight⟩ :=
    exists_derives_operation left right leftReads rightReads op
  rw [execute_of_derives sliced derives, Formula.build, built, ok_bind, builtRight, ok_bind]
  simp only [Tree.builder, Tree.value_relocate, locate_bind_pure, Tree.valued]

/-- Expressions compose as texts: in parentheses an expression has its own tree, further on in the
text, and a negation, a call or an operation whose operands are expressions in parentheses has the
node over their trees, with the value of the operation on their values, or else the fault of the
operation. No such text writes a variable. -/
theorem execute_composed :
    execute ("(" ++ s ++ ")") bindings = (.ok (a.relocate (· + 1)), bindings) ∧
    execute ("-(" ++ s ++ ")") bindings =
      (Tree.valued 0 (negated a.value) fun value => .negation (a.relocate (· + 2)) value 0,
        bindings) ∧
    (∀ f : Function, execute (f.name ++ "(" ++ s ++ ")") bindings =
      (Tree.valued 0 (call f.name [a.value]) fun value =>
        .call f.name [a.relocate (· + (f.name.utf8ByteSize + 1))] value 0, bindings)) ∧
    ∀ op : Operator, execute ("(" ++ s ++ ")" ++ op.sign ++ "(" ++ r ++ ")") bindings =
      (Tree.valued (s.utf8ByteSize + 2) (op.apply a.value b.value) fun value =>
        .operation op (a.relocate (· + 1))
          (b.relocate (· + (s.utf8ByteSize + op.sign.utf8ByteSize + 3))) value
          (s.utf8ByteSize + 2), bindings) :=
  ⟨execute_group left leftReads, execute_negation left leftReads, execute_call left leftReads,
    execute_operation left right leftReads rightReads⟩

end Operands

/-- The quotient of two expressions faults at its sign: the divisor has the value zero. -/
theorem execute_composed_quotient :
    (∃ a, evaluate "pi" .initial = .ok a ∧ a.isAssignment = false) ∧
    (∃ b, evaluate "e-e" .initial = .ok b ∧ b.isAssignment = false) ∧
    execute "(pi)/(e-e)" .initial = (.error (.parse ⟨.fault .divisionByZero, 4⟩), .initial) := by
  have scanned : scan "pi" = .ok [⟨.identifier "pi", 0⟩, ⟨.endOfInput, 2⟩] := by
    simp [scan, scanFrom, isBlank]
  have scanned' : scan "e-e" = .ok [⟨.identifier "e", 0⟩, ⟨.minus, 1⟩, ⟨.identifier "e", 2⟩,
      ⟨.endOfInput, 3⟩] := by
    simp [scan, scanFrom, isBlank, startsNumeral, ofSymbol?]
  have left : ∃ a, evaluate "pi" .initial = .ok a ∧ a.isAssignment = false := by
    rw [evaluate_of_scan scanned]
    exact ⟨_, rfl, rfl⟩
  have right : ∃ b, evaluate "e-e" .initial = .ok b ∧ b.isAssignment = false ∧
      (b.value == 0.0) = true := by
    rw [evaluate_of_scan scanned']
    exact ⟨_, rfl, rfl, by decide +kernel⟩
  obtain ⟨a, evaluated, reads⟩ := left
  obtain ⟨b, evaluated', reads', zero⟩ := right
  obtain ⟨-, -, -, operations⟩ := execute_composed evaluated evaluated' reads reads'
  refine ⟨⟨a, evaluated, reads⟩, ⟨b, evaluated', reads'⟩, (operations .div).trans ?_⟩
  simp only [Operator.apply, Operator.result, zero, if_true, Tree.valued]
  rfl

end Calculator
