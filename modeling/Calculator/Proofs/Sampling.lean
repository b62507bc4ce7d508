import Calculator.Plot.Protocol
import Calculator.Proofs.EqualsSigns

/-!
Sampling keeps to its protocol.

`sample` scans its text once, looks for the end of the grid while it goes, and gathers its
points in an array. None of this can be seen from outside: what it does is to execute the
text at one point of the grid after the other (`sampleFrom_eq_sampleAt`). Only a text that
cannot be scanned is found out before the first point, so its error names the beginning of
the grid and leaves the bindings alone (`sample_eq_sampleAt`).

An expression writes nothing, so at each point there is nothing left of the points before
it but the value of the variable, which is overwritten (`sampleAt_expression`). What is
sampled are then the values that the expression has at the points, each taken alone
(`sample_pointwise`).
-/

namespace Calculator

variable {text : String} {tokens : List Lexeme} {grid : Grid} {bindings : Bindings}

/-! ### The points that are left -/

namespace Grid

/-- The points from `index` on, looking at no more than `budget` indices. -/
def pointsFrom (grid : Grid) (index : Nat) : Nat → List Float
  | 0 => []
  | budget + 1 =>
    if grid.covers (grid.point index) then
      grid.point index :: grid.pointsFrom (index + 1) budget
    else []

theorem pointsFrom_eq (grid : Grid) (index budget : Nat) :
    grid.pointsFrom index budget =
      (List.range' index (grid.endFrom index budget - index)).map grid.point := by
  induction budget generalizing index with
  | zero => simp [pointsFrom, endFrom]
  | succ budget ih =>
    unfold pointsFrom endFrom
    split
    · have later := grid.le_endFrom (index + 1) budget
      have count : grid.endFrom (index + 1) budget - index =
          grid.endFrom (index + 1) budget - (index + 1) + 1 := by
        omega
      rw [ih, count, List.range'_succ, List.map_cons]
    · simp

theorem points_eq_pointsFrom (grid : Grid) : grid.points = grid.pointsFrom 0 indexCount := by
  rw [pointsFrom_eq, Nat.sub_zero, ← List.range_eq_range', points, countUpTo]

/-- A grid has a first point. -/
theorem exists_points_eq_cons (grid : Grid) :
    ∃ points, grid.points = grid.point 0 :: points := by
  obtain ⟨budget, some_index⟩ : ∃ budget, indexCount = budget + 1 := ⟨4294967295, rfl⟩
  rw [points_eq_pointsFrom, some_index, pointsFrom, if_pos grid.covers_point_zero]
  exact ⟨_, rfl⟩

theorem points_ne_nil (grid : Grid) : grid.points ≠ [] := by
  obtain ⟨points, points_eq⟩ := grid.exists_points_eq_cons
  rw [points_eq]
  exact List.cons_ne_nil _ _

/-- The first point is where the range begins, up to the sign of zero. -/
theorem point_zero_beq (grid : Grid) : grid.point 0 == grid.first := by
  rw [Double.beq_iff (grid.defined_point (by decide)) (Double.defined grid.isFinite_first)]
  exact grid.number_point_zero

end Grid

/-! ### The protocol -/

theorem sampleAt_of_ok {x : Float} {tree : Tree} (points : List Float)
    (evaluated : evaluate text (bindings.set sampleVariable x) = .ok tree) :
    sampleAt text bindings (x :: points) =
      let after := sampleAt text ((bindings.set sampleVariable x).record tree) points
      (((x, tree.value) :: ·) <$> after.1, after.2) := by
  simp only [sampleAt, execute, evaluated, Bindings.after]

theorem sampleAt_of_error {x : Float} {e : EvalError} (points : List Float)
    (evaluated : evaluate text (bindings.set sampleVariable x) = .error e) :
    sampleAt text bindings (x :: points) =
      (.error (.atPoint x e), bindings.set sampleVariable x) := by
  simp only [sampleAt, execute, evaluated, Bindings.after]

/-- From each index on, sampling executes the text at the points that are left. -/
theorem sampleFrom_eq_sampleAt (scanned : scan text = .ok tokens) (index budget : Nat)
    (bindings : Bindings) (done : Array (Float × Float)) :
    sampleFrom grid tokens index bindings done budget =
      let rest := sampleAt text bindings (grid.pointsFrom index budget)
      ((done.toList ++ ·) <$> rest.1, rest.2) := by
  induction budget generalizing index bindings done with
  | zero => simp [sampleFrom, Grid.pointsFrom, sampleAt]
  | succ budget ih =>
    unfold sampleFrom Grid.pointsFrom
    by_cases covered : grid.covers (grid.point index)
    · simp only [if_pos covered]
      have evaluated := evaluate_of_scan scanned (bindings.set sampleVariable (grid.point index))
      cases answer : evaluateTokens tokens (bindings.set sampleVariable (grid.point index)) with
      | error e =>
        rw [answer] at evaluated
        rw [sampleAt_of_error _ evaluated]
        rfl
      | ok tree =>
        rw [answer] at evaluated
        simp only [ih, sampleAt_of_ok _ evaluated, Array.toList_push]
        cases (sampleAt text ((bindings.set sampleVariable (grid.point index)).record tree)
          (grid.pointsFrom (index + 1) budget)).1 <;> simp
    · simp [covered, sampleAt]

theorem sample_of_scan (scanned : scan text = .ok tokens) (grid : Grid) (bindings : Bindings) :
    sample text grid bindings = sampleAt text bindings grid.points := by
  simp only [sample, scanned, sampleFrom_eq_sampleAt scanned, ← Grid.points_eq_pointsFrom,
    List.nil_append, id_map']

/-- Sampling a text is executing it at the points of the grid in turn, scanned anew at each of
them: the values, the error and the bindings are the same. The error of a text that cannot be
scanned is the same as well. It names the beginning of the range instead of the first point, and
the two differ in the sign of zero at most; the bindings are then left as they were. -/
theorem sample_eq_sampleAt (text : String) (grid : Grid) (bindings : Bindings) :
    (∀ tokens, scan text = .ok tokens →
      sample text grid bindings = sampleAt text bindings grid.points) ∧
    ∀ e, scan text = .error e →
      sample text grid bindings = (.error (.atPoint grid.first (.scan e)), bindings) ∧
      ∃ x, (sampleAt text bindings grid.points).1 = .error (.atPoint x (.scan e)) ∧
        x == grid.first := by
  constructor
  · intro tokens scanned
    exact sample_of_scan scanned grid bindings
  · intro e failed
    obtain ⟨points, points_eq⟩ := grid.exists_points_eq_cons
    have evaluated : evaluate text (bindings.set sampleVariable (grid.point 0)) =
        .error (.scan e) := by
      rw [evaluate, failed]
      rfl
    refine ⟨by simp only [sample, failed], grid.point 0, ?_, grid.point_zero_beq⟩
    rw [points_eq, sampleAt_of_error _ evaluated]

/-- A grid that begins at the negative zero: its first point is the other zero. An assignment that
is sampled adds up the points, and a text that cannot be scanned fails at the negative zero. -/
theorem sample_eq_sampleAt_zeros :
    ∃ grid : Grid, grid.first = -0.0 ∧
      sample "a=a+x" grid (Bindings.empty.set "a" 0.0) =
        sampleAt "a=a+x" (Bindings.empty.set "a" 0.0) grid.points ∧
      (sample "a=a+x" grid (Bindings.empty.set "a" 0.0)).1 =
        .ok [(0.0, 0.0), (1.0, 1.0), (2.0, 3.0)] ∧
      sample "$" grid .empty =
        (.error (.atPoint (-0.0) (.scan ⟨.invalidCharacter '$', 0⟩)), .empty) ∧
      ∃ x, (sampleAt "$" .empty grid.points).1 =
        .error (.atPoint x (.scan ⟨.invalidCharacter '$', 0⟩)) ∧ x == grid.first := by
  let grid : Grid := ⟨-0.0, 2.0, 1.0, by decide +kernel⟩
  have scanned : scan "a=a+x" = .ok [⟨.identifier "a", 0⟩, ⟨.assign, 1⟩, ⟨.identifier "a", 2⟩,
      ⟨.plus, 3⟩, ⟨.identifier "x", 4⟩, ⟨.endOfInput, 5⟩] := by
    simp [scan, Token.scanFrom, Token.isBlank, Token.startsNumeral, Token.ofSymbol?]
  have failed : scan "$" = .error ⟨.invalidCharacter '$', 0⟩ := by
    simp [scan, Token.scanFrom, Token.isBlank, Token.startsNumeral, Token.ofSymbol?]
  obtain ⟨kept, left⟩ := (sample_eq_sampleAt "$" grid .empty).2 _ failed
  refine ⟨grid, rfl, (sample_eq_sampleAt "a=a+x" grid _).1 _ scanned, ?_, kept, left⟩
  simp only [sample, scanned]
  decide +kernel

/-! ### Expressions -/

/-- An expression leaves the bindings as they are. -/
theorem record_of_expression (scanned : scan text = .ok tokens)
    (expression : ¬ BeginsAssignment tokens) {tree : Tree}
    (evaluated : evaluate text bindings = .ok tree) : bindings.record tree = bindings := by
  rw [evaluate_of_scan scanned, mapError_eq_ok] at evaluated
  have reads : assigns (evaluateTokens tokens bindings) = false := by
    refine Bool.eq_false_iff.mpr fun writes => ?_
    exact expression (assigns_evaluateTokens.mp writes).2
  have unchanged : bindings.after (evaluateTokens tokens bindings) = bindings :=
    after_of_not_assigns reads
  rwa [evaluated] at unchanged

/-- Sampling an expression at points one after the other, from bindings that differ from the given
ones in the variable at most: either it has a value at each of the points, or there is a first one
where it fails. -/
theorem sampleAt_expression (scanned : scan text = .ok tokens)
    (expression : ¬ BeginsAssignment tokens) (bindings : Bindings) {now : Bindings}
    (same : ∀ x, now.set sampleVariable x = bindings.set sampleVariable x) (x : Float)
    (points : List Float) :
    (∃ trees : List Tree,
      (x :: points).map (fun y => evaluate text (bindings.set sampleVariable y)) =
        trees.map .ok ∧
      sampleAt text now (x :: points) = (.ok ((x :: points).zip (trees.map Tree.value)),
        bindings.set sampleVariable ((x :: points).getLast (List.cons_ne_nil x points)))) ∨
    ∃ before y after e, x :: points = before ++ y :: after ∧
      (∀ z ∈ before, ∃ tree, evaluate text (bindings.set sampleVariable z) = .ok tree) ∧
      evaluate text (bindings.set sampleVariable y) = .error e ∧
      sampleAt text now (x :: points) = (.error (.atPoint y e), bindings.set sampleVariable y) := by
  induction points generalizing now x with
  | nil =>
    cases answer : evaluate text (bindings.set sampleVariable x) with
    | error e =>
      refine .inr ⟨[], x, [], e, rfl, nofun, answer, ?_⟩
      rw [sampleAt_of_error _ (by rwa [same]), same]
    | ok tree =>
      refine .inl ⟨[tree], by simp [answer], ?_⟩
      rw [sampleAt_of_ok _ (by rwa [same]), same, record_of_expression scanned expression answer]
      rfl
  | cons next points ih =>
    cases answer : evaluate text (bindings.set sampleVariable x) with
    | error e =>
      refine .inr ⟨[], x, next :: points, e, rfl, nofun, answer, ?_⟩
      rw [sampleAt_of_error _ (by rwa [same]), same]
    | ok tree =>
      have evaluated : evaluate text (now.set sampleVariable x) = .ok tree := by
        rwa [same]
      have step := sampleAt_of_ok (next :: points) evaluated
      rw [same, record_of_expression scanned expression answer] at step
      -- What the points before have left is overwritten by the next one.
      rcases @ih (bindings.set sampleVariable x) (fun y => bindings.set_set _ x y) next with
        ⟨trees, answers, sampled⟩ | ⟨before, y, after, e, split, fine, failed, sampled⟩
      · refine .inl ⟨tree :: trees, ?_, ?_⟩
        · rw [List.map_cons, answer, answers, List.map_cons]
        · rw [step, sampled]
          simp
      · refine .inr ⟨x :: before, y, after, e, ?_, ?_, failed, ?_⟩
        · rw [split, List.cons_append]
        · exact List.forall_mem_cons.mpr ⟨⟨tree, answer⟩, fine⟩
        · rw [step, sampled]
          rfl

/-- An expression is sampled pointwise. Either it has a value at every point of the grid, and these
are what is gathered, in the order of the points; or the sample is the error at the first point
where it has none. Its value at a point is the one in the given bindings with that point as the
variable, and these are also the bindings that the last point tried leaves. -/
theorem sample_pointwise (scanned : scan text = .ok tokens)
    (expression : ¬ BeginsAssignment tokens) (grid : Grid) (bindings : Bindings) :
    (∃ trees : List Tree,
      grid.points.map (fun x => evaluate text (bindings.set sampleVariable x)) =
        trees.map .ok ∧
      sample text grid bindings = (.ok (grid.points.zip (trees.map Tree.value)),
        bindings.set sampleVariable (grid.points.getLast grid.points_ne_nil))) ∨
    ∃ before x after e, grid.points = before ++ x :: after ∧
      (∀ y ∈ before, ∃ tree, evaluate text (bindings.set sampleVariable y) = .ok tree) ∧
      evaluate text (bindings.set sampleVariable x) = .error e ∧
      sample text grid bindings = (.error (.atPoint x e), bindings.set sampleVariable x) := by
  obtain ⟨points, points_eq⟩ := grid.exists_points_eq_cons
  have pointwise := sampleAt_expression scanned expression bindings (fun _ => rfl) (grid.point 0)
    points
  simp only [← points_eq, ← sample_of_scan scanned] at pointwise
  exact pointwise

/-- A quotient with a pole inside the grid: it has a value at the point before the pole, and the
point after it is not tried. -/
theorem sample_pointwise_pole :
    ∃ grid : Grid,
      sample "e/x" grid .initial =
        (.error (.atPoint 0.0 (.parse ⟨.fault .divisionByZero, 1⟩)),
          Bindings.initial.set sampleVariable 0.0) ∧
      ∃ before after, grid.points = before ++ 0.0 :: after ∧ ∀ y ∈ before,
        ∃ tree, evaluate "e/x" (Bindings.initial.set sampleVariable y) = .ok tree := by
  let grid : Grid := ⟨-1.0, 1.0, 1.0, by decide +kernel⟩
  have scanned : scan "e/x" = .ok [⟨.identifier "e", 0⟩, ⟨.slash, 1⟩, ⟨.identifier "x", 2⟩,
      ⟨.endOfInput, 3⟩] := by
    simp [scan, Token.scanFrom, Token.isBlank, Token.startsNumeral, Token.ofSymbol?]
  have expression : ¬ BeginsAssignment [⟨.identifier "e", 0⟩, ⟨.slash, 1⟩, ⟨.identifier "x", 2⟩,
      ⟨.endOfInput, 3⟩] := by
    simp [BeginsAssignment]
  have first_failure : (sample "e/x" grid .initial).1 =
      .error (.atPoint 0.0 (.parse ⟨.fault .divisionByZero, 1⟩)) := by
    simp only [sample, scanned]
    decide +kernel
  refine ⟨grid, ?_⟩
  rcases sample_pointwise scanned expression grid .initial with
    ⟨trees, _, sampled⟩ | ⟨before, x, after, e, split, fine, _, sampled⟩
  · rw [sampled] at first_failure
    cases first_failure
  · rw [sampled] at first_failure
    cases first_failure
    exact ⟨sampled, before, after, split, fine⟩

end Calculator
