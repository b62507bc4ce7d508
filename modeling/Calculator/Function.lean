import Calculator.Arithmetic

/-!
The builtin functions and constants.

Every function takes one argument. `call` applies a function by its name, as a
statement does.
-/

namespace Calculator

/-- The builtin functions, in the order in which they are listed. -/
inductive Function where
  | sin | cos | tan | log | exp
deriving DecidableEq, Repr

namespace Function

/-- The builtin functions, in the order in which they are listed. -/
def all : List Function :=
  [.sin, .cos, .tan, .log, .exp]

/-- The name by which a statement calls a function. -/
def name : Function → String
  | .sin => "sin"
  | .cos => "cos"
  | .tan => "tan"
  | .log => "log"
  | .exp => "exp"

/-- What a function computes, in words. -/
def about : Function → String
  | .sin => "sine of an angle in radians"
  | .cos => "cosine of an angle in radians"
  | .tan => "tangent of an angle in radians"
  | .log => "natural logarithm"
  | .exp => "e raised to the argument"

/-- The function with a given name. -/
def ofName? (name : String) : Option Function :=
  all.find? fun f => f.name = name

theorem name_of_ofName? {name : String} {f : Function} (named : ofName? name = some f) :
    f.name = name := by
  simpa using List.find?_some named

/-- The result of a function before it is checked. The logarithm takes positive
numbers only. -/
def result (f : Function) (x : Float) : Except Fault Float :=
  match f with
  | .sin => .ok x.sin
  | .cos => .ok x.cos
  | .tan => .ok x.tan
  | .log =>
    if x ≤ 0.0 then
      .error (.invalidArgument
        ("log is only defined for positive numbers, but found " ++ Numeral.write x))
    else .ok x.log
  | .exp => .ok x.exp

/-- The value of a function. -/
def apply (f : Function) (x : Float) : Except Fault Float := do
  checked (fun _ => f.name ++ "(" ++ Numeral.write x ++ ")") (← f.result x)

end Function

/-- A call has to have as many arguments as its function expects. -/
def checkCount (name : String) (expected found : Nat) : Except Fault Unit :=
  if found = expected then .ok () else .error (.argumentCount name expected found)

theorem checkCount_eq_ok {name : String} {expected found : Nat} {done : Unit} :
    checkCount name expected found = .ok done ↔ found = expected := by
  unfold checkCount
  split <;> simp [*]

/-- The value of a call. The name is looked at before the number of arguments. -/
def call (name : String) (arguments : List Float) : Except Fault Float :=
  match Function.ofName? name with
  | none => .error (.unknownFunction name)
  | some f => do
    checkCount f.name 1 arguments.length
    -- There is one argument, so the default is never taken.
    f.apply (arguments.headD 0.0)

theorem call_singleton {name : String} {f : Function} (named : Function.ofName? name = some f)
    (x : Float) : call name [x] = f.apply x := by
  rw [call, named]
  rfl

/-- A call has the value of its function at the only argument. -/
theorem call_eq_ok {name : String} {arguments : List Float} {value : Float} :
    call name arguments = .ok value ↔
      ∃ f x, Function.ofName? name = some f ∧ arguments = [x] ∧ f.apply x = .ok value := by
  constructor
  · intro calls
    cases named : Function.ofName? name with
    | none =>
      rw [call, named] at calls
      cases calls
    | some f =>
      cases counted : checkCount f.name 1 arguments.length with
      | error fault =>
        simp only [call, named, counted] at calls
        cases calls
      | ok done =>
        obtain ⟨x, rfl⟩ := List.length_eq_one_iff.mp (checkCount_eq_ok.mp counted)
        exact ⟨f, x, rfl, rfl, (call_singleton named x).symm.trans calls⟩
  · rintro ⟨f, x, named, rfl, applied⟩
    exact (call_singleton named x).trans applied

/-- The builtin constants, in the order in which they are listed. -/
def constants : List (String × Float) :=
  [("pi", 3.141592653589793), ("e", 2.718281828459045)]

end Calculator
