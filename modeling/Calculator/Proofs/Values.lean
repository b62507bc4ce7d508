import Calculator.Proofs.EqualsSigns

/-!
The values of a calculation.

No calculation shows a number that is not finite, or the negative zero (`IsValue`). What
arithmetic and functions give is checked, whatever they compute (`isValue_of_checked`); a
numeral is checked where the text is scanned, and has no sign (`Token.Slice.holdsValue`). A
variable is read without a check: its value is one because nothing else is ever written. So
the bindings are part of what has to be kept: they are assumed for the parts of an expression
(`Formula.HoldsValues.of_build`), kept by a text (`Bindings.HoldsValues.execute`), and then by
the texts of a session.
-/

namespace Calculator

variable {x y z : Float} {name text : String} {bindings : Bindings} {tree : Tree}
  {f : Formula} {tokens : List Lexeme}

/-- A finite number, and not the negative zero. -/
def IsValue (x : Float) : Prop :=
  x.isFinite ∧ x ≠ -0.0

instance : Decidable (IsValue x) :=
  inferInstanceAs (Decidable (_ ∧ _))

/-! ### Arithmetic and functions -/

/-- It does not matter what is checked. -/
theorem isValue_of_checked {details : Unit → String} {result : Float}
    (h : checked details result = .ok z) : IsValue z := by
  unfold checked at h
  split at h
  · cases h
    decide
  · rename_i nonzero
    split at h
    · rename_i finite
      cases h
      refine ⟨finite, ?_⟩
      rintro rfl
      exact nonzero (by decide)
    · cases h

theorem isValue_of_apply {op : Operator} (h : op.apply x y = .ok z) : IsValue z := by
  obtain ⟨result, -, h⟩ := bind_eq_ok.mp h
  exact isValue_of_checked h

theorem isValue_of_negated (h : negated x = .ok z) : IsValue z :=
  isValue_of_checked h

theorem isValue_of_call {arguments : List Float} (h : call name arguments = .ok z) :
    IsValue z := by
  obtain ⟨f, x, -, -, applied⟩ := call_eq_ok.mp h
  obtain ⟨result, -, checks⟩ := bind_eq_ok.mp applied
  exact isValue_of_checked checks

/-! ### Numerals -/

/-- The pattern of a magnitude leaves the sign out. -/
theorem Magnitude.toFloat_ne_negZero (m : Magnitude) : m.toFloat ≠ -0.0 := by
  intro same
  have bits := congrArg (fun x : Float => x.toModel.toBits.toNat) same
  have negZero : (-0.0 : Float).toModel.toBits.toNat = Form.patternCount := by decide
  have positive : m.toFloat.toModel.toBits.toNat = m.pattern % 2 ^ 64 := rfl
  have small := m.pattern_le
  simp only [negZero, positive] at bits
  simp only [infinityPattern, fractionCount, Form.patternCount] at small bits
  omega

theorem Decimal.toFloat_ne_negZero (d : Decimal) : d.toFloat ≠ -0.0 := by
  unfold toFloat
  split
  · exact Magnitude.toFloat_ne_negZero _
  · split
    · decide
    · exact Magnitude.toFloat_ne_negZero _

/-- The number of a token is a value. -/
def Token.HoldsValue : Token → Prop
  | .number value => IsValue value
  | _ => True

theorem Token.Slice.holdsValue {slice rest : List Char} {token : Token}
    (h : Slice slice rest token) : token.HoldsValue := by
  cases h with
  | name => trivial
  | numeral _ _ _ made =>
    obtain ⟨⟨-, finite⟩, rfl⟩ := ofNumeral_eq_ok_iff.mp made
    exact ⟨finite, Decimal.toFloat_ne_negZero _⟩
  | symbol made =>
    unfold ofSymbol? at made
    split at made <;> cases made <;> trivial

theorem Token.Sliced.holdsValue {position : Nat} {text : List Char}
    (h : Sliced position text tokens) : ∀ lexeme ∈ tokens, lexeme.token.HoldsValue := by
  induction h with
  | done => simp [HoldsValue]
  | blank _ _ ih => exact ih
  | slice slice _ ih => exact List.forall_mem_cons.mpr ⟨slice.holdsValue, ih⟩

/-! ### Trees -/

/-- Every number in an expression is a value. -/
def Formula.HoldsValues : Formula → Prop
  | .number value _ => IsValue value
  | .reference _ _ | .emptyCall _ _ => True
  | .assignment _ f _ | .negation f _ | .call _ f _ => f.HoldsValues
  | .operation _ f g _ => f.HoldsValues ∧ g.HoldsValues

theorem Derives.holdsValues {level : Level} (derives : Derives level f tokens)
    (numbers : ∀ lexeme ∈ tokens, lexeme.token.HoldsValue) : f.HoldsValues := by
  induction derives with
  | number => exact numbers _ List.mem_cons_self
  | reference | emptyCall => trivial
  | group _ ih | call _ ih | negation _ ih =>
    refine ih fun lexeme mem => numbers lexeme ?_
    simp [mem]
  | operation _ _ _ ihl ihr =>
    refine ⟨ihl fun lexeme mem => numbers lexeme ?_, ihr fun lexeme mem => numbers lexeme ?_⟩
    · simp [mem]
    · simp [mem]
  | impliedProduct _ _ _ ihl ihr =>
    refine ⟨ihl fun lexeme mem => numbers lexeme ?_, ihr fun lexeme mem => numbers lexeme ?_⟩
    · rcases List.mem_append.mp mem with mem | mem
      · simp [mem]
      · simp [List.mem_singleton.mp mem]
    · rcases List.mem_cons.mp mem with rfl | mem
      · simp
      · simp [mem]
  | looser _ _ ih => exact ih numbers

theorem DerivesStatement.holdsValues (derives : DerivesStatement f tokens)
    (numbers : ∀ lexeme ∈ tokens, lexeme.token.HoldsValue) : f.HoldsValues := by
  cases derives with
  | expression derives => exact derives.holdsValues numbers
  | assignment derives =>
    exact derives.holdsValues fun lexeme mem => numbers lexeme (by simp [mem])

namespace Tree

/-- Every node of a tree, at whatever depth, shows a value. -/
def HoldsValues (tree : Tree) : Prop :=
  ∀ depth, ∀ row ∈ tree.rows depth, IsValue row.value

theorem HoldsValues.value (h : tree.HoldsValues) : IsValue tree.value := by
  refine h 0 ⟨0, tree.kind, tree.value, tree.position⟩ ?_
  rw [rows_eq]
  exact List.mem_cons_self

theorem HoldsValues.of_children (root : IsValue tree.value)
    (parts : ∀ part ∈ tree.children, part.HoldsValues) : tree.HoldsValues := by
  intro depth row mem
  rw [rows_eq] at mem
  rcases List.mem_cons.mp mem with rfl | mem
  · exact root
  · obtain ⟨part, isPart, mem⟩ := mem_rowsOfList.mp mem
    exact parts part isPart (depth + 1) row mem

end Tree

/-! ### Bindings -/

namespace Bindings

/-- Every variable has a value. -/
def HoldsValues (bindings : Bindings) : Prop :=
  ∀ entry ∈ bindings.entries, IsValue entry.2

theorem HoldsValues.set (h : bindings.HoldsValues) (isValue : IsValue z) :
    (bindings.set name z).HoldsValues := by
  intro entry mem
  rcases mem_insertEntry mem with rfl | mem
  · exact isValue
  · exact h entry mem

theorem HoldsValues.setAll {settings : List (String × Float)} (h : bindings.HoldsValues)
    (values : ∀ setting ∈ settings, IsValue setting.2) :
    (bindings.setAll settings).HoldsValues := by
  induction settings generalizing bindings with
  | nil => exact h
  | cons setting settings ih =>
    obtain ⟨first, others⟩ := List.forall_mem_cons.mp values
    exact ih (h.set first) others

theorem holdsValues_initial : initial.HoldsValues := by
  have none : empty.HoldsValues := nofun
  refine none.setAll ?_
  simp only [constants, List.forall_mem_cons]
  exact ⟨by decide, by decide, nofun⟩

theorem HoldsValues.read (h : bindings.HoldsValues) (found : bindings.read name = .ok z) :
    IsValue z := by
  obtain ⟨before, after, split, -⟩ := List.lookup_eq_some_iff.mp (read_eq_ok.mp found)
  exact h (name, z) (by simp [split])

end Bindings

/-! ### Evaluation -/

/-- Each part of an expression is checked, is a numeral, or is read from the bindings. -/
theorem Formula.HoldsValues.of_build (numbers : f.HoldsValues) (values : bindings.HoldsValues)
    (built : f.build (Tree.builder bindings) = .ok tree) : tree.HoldsValues := by
  induction f generalizing tree with
  | number v p =>
    cases built
    exact .of_children numbers nofun
  | reference name p =>
    obtain ⟨v, found, ⟨⟩⟩ := bind_eq_ok.mp (Fault.locate_eq_ok.mp built)
    exact .of_children (values.read found) nofun
  | assignment name right p ih =>
    obtain ⟨whole, builtRight, ⟨⟩⟩ := bind_eq_ok.mp built
    have held := ih numbers builtRight
    exact .of_children held.value (List.forall_mem_singleton.mpr held)
  | negation operand p ih =>
    obtain ⟨whole, builtOperand, built⟩ := bind_eq_ok.mp built
    obtain ⟨v, negates, ⟨⟩⟩ := bind_eq_ok.mp (Fault.locate_eq_ok.mp built)
    exact .of_children (isValue_of_negated negates)
      (List.forall_mem_singleton.mpr (ih numbers builtOperand))
  | operation op left right p ihl ihr =>
    obtain ⟨a, builtLeft, built⟩ := bind_eq_ok.mp built
    obtain ⟨b, builtRight, built⟩ := bind_eq_ok.mp built
    obtain ⟨v, applies, ⟨⟩⟩ := bind_eq_ok.mp (Fault.locate_eq_ok.mp built)
    refine .of_children (isValue_of_apply applies) (List.forall_mem_cons.mpr ⟨?_, ?_⟩)
    · exact ihl numbers.1 builtLeft
    · exact List.forall_mem_singleton.mpr (ihr numbers.2 builtRight)
  | call name argument p ih =>
    obtain ⟨_, -, built⟩ := bind_eq_ok.mp built
    obtain ⟨whole, builtArgument, built⟩ := bind_eq_ok.mp built
    obtain ⟨v, calls, ⟨⟩⟩ := bind_eq_ok.mp (Fault.locate_eq_ok.mp built)
    exact .of_children (isValue_of_call calls)
      (List.forall_mem_singleton.mpr (ih numbers builtArgument))
  | emptyCall name p =>
    obtain ⟨_, -, built⟩ := bind_eq_ok.mp built
    obtain ⟨v, calls, ⟨⟩⟩ := bind_eq_ok.mp (Fault.locate_eq_ok.mp built)
    exact .of_children (isValue_of_call calls) nofun

theorem holdsValues_of_evaluate (values : bindings.HoldsValues)
    (evaluated : evaluate text bindings = .ok tree) : tree.HoldsValues := by
  obtain ⟨tokens, scanned, evaluated⟩ := evaluate_eq_ok.mp evaluated
  obtain ⟨f, derives, built⟩ := exists_derivesStatement_of_assembleStatement evaluated
  have numbers := (sliced_of_scan scanned).holdsValue
  refine (derives.holdsValues fun lexeme mem => numbers lexeme ?_).of_build values built
  exact (List.takeWhile_sublist _).mem mem

/-- An assignment binds its name to the value of its tree. -/
theorem Bindings.HoldsValues.record (values : bindings.HoldsValues) (held : tree.HoldsValues) :
    (bindings.record tree).HoldsValues := by
  cases tree with
  | assignment => exact values.set held.value
  | _ => exact values

theorem Bindings.HoldsValues.execute (values : bindings.HoldsValues) (text : String) :
    (execute text bindings).2.HoldsValues := by
  unfold Calculator.execute
  cases evaluated : evaluate text bindings with
  | error e => exact values
  | ok tree => exact values.record (holdsValues_of_evaluate values evaluated)

theorem Bindings.HoldsValues.session (values : bindings.HoldsValues) (texts : List String) :
    (session bindings texts).2.HoldsValues ∧
      ∀ tree, .ok tree ∈ (session bindings texts).1 → tree.HoldsValues := by
  induction texts generalizing bindings with
  | nil => exact ⟨values, nofun⟩
  | cons text texts ih =>
    obtain ⟨left, held⟩ := ih (values.execute text)
    rw [session_cons]
    refine ⟨left, fun tree answer => ?_⟩
    rcases List.mem_cons.mp answer with evaluated | answer
    · exact holdsValues_of_evaluate values evaluated.symm
    · exact held tree answer

/-- The bindings of a command line: the constants, and then the settings that it gives. -/
def Bindings.Given (bindings : Bindings) : Prop :=
  ∃ settings : List (String × Float),
    (∀ setting ∈ settings, ∃ text, CommandLine.readSetting text = .ok setting) ∧
    bindings = initial.setAll settings

theorem Bindings.Given.holdsValues (given : bindings.Given) : bindings.HoldsValues := by
  obtain ⟨settings, accepted, rfl⟩ := given
  refine holdsValues_initial.setAll fun setting mem => ?_
  obtain ⟨text, read⟩ := accepted setting mem
  obtain ⟨left, right, tree, -, -, -, -, evaluated, value_eq⟩ := readSetting_eq_ok.mp read
  rw [← value_eq]
  exact (holdsValues_of_evaluate holdsValues_initial evaluated).value

/-- From the bindings of a command line, or from any others that hold values only, whatever texts
are executed: every variable then has a value, and so has every node of every tree on the way. -/
theorem session_holdsValues (start : bindings.Given ∨ bindings.HoldsValues)
    (texts : List String) :
    (session bindings texts).2.HoldsValues ∧
      ∀ tree, .ok tree ∈ (session bindings texts).1 → tree.HoldsValues := by
  rcases start with given | values
  · exact given.holdsValues.session texts
  · exact values.session texts

/-- A difference that is negated and assigned: the zero that comes out has no sign. -/
theorem session_holdsValues_zero :
    ∃ setting tree, CommandLine.readSetting "r=e" = .ok setting ∧
      (session (Bindings.initial.setAll [setting]) ["z=-(r-r)", "$"]).1 =
        [.ok tree, .error (.scan ⟨.invalidCharacter '$', 0⟩)] ∧
      tree.value = 0.0 ∧ tree.HoldsValues ∧
      (session (Bindings.initial.setAll [setting]) ["z=-(r-r)", "$"]).2.HoldsValues := by
  have scanned : scan "e" = .ok [⟨.identifier "e", 0⟩, ⟨.endOfInput, 1⟩] := by
    simp [scan, Token.scanFrom, Token.isBlank]
  have read : CommandLine.readSetting "r=e" = .ok ("r", 2.718281828459045) := by
    refine readSetting_eq_ok.mpr ⟨['r'], ['e'], .reference "e" 2.718281828459045 0, rfl, by decide,
      rfl, by decide, ?_, rfl⟩
    rw [evaluate_of_scan scanned]
    rfl
  have scannedZero : scan "z=-(r-r)" = .ok [⟨.identifier "z", 0⟩, ⟨.assign, 1⟩, ⟨.minus, 2⟩,
      ⟨.openParen, 3⟩, ⟨.identifier "r", 4⟩, ⟨.minus, 5⟩, ⟨.identifier "r", 6⟩, ⟨.closeParen, 7⟩,
      ⟨.endOfInput, 8⟩] := by
    simp [scan, Token.scanFrom, Token.isBlank, Token.startsNumeral, Token.ofSymbol?]
  have failed : scan "$" = .error ⟨.invalidCharacter '$', 0⟩ := by
    simp [scan, Token.scanFrom, Token.isBlank, Token.startsNumeral, Token.ofSymbol?]
  let start := Bindings.initial.setAll [("r", 2.718281828459045)]
  have evaluated : ∃ tree, evaluate "z=-(r-r)" start = .ok tree ∧ tree.value = 0.0 := by
    rw [evaluate_of_scan scannedZero]
    exact ⟨_, rfl, rfl⟩
  obtain ⟨tree, evaluated, zero⟩ := evaluated
  have answers : (session start ["z=-(r-r)", "$"]).1 =
      [.ok tree, .error (.scan ⟨.invalidCharacter '$', 0⟩)] := by
    rw [session_cons, session_cons, evaluated, evaluate, failed]
    rfl
  have given : start.Given :=
    ⟨_, List.forall_mem_singleton.mpr ⟨"r=e", read⟩, rfl⟩
  obtain ⟨left, held⟩ := session_holdsValues (.inl given) ["z=-(r-r)", "$"]
  exact ⟨_, tree, read, answers, zero, held tree (answers ▸ List.mem_cons_self), left⟩

end Calculator
