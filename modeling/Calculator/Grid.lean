/-!
Evenly spaced points.

A `Grid` begins at `first` and goes on by `step`; it takes its points for as long as
they do not pass `last` by more than `endTolerance`. Bounds that make no sensible
grid are refused by `Grid.objection?`, and every `Grid` comes with the proof that it
met no objection.
-/

namespace Calculator

/-- Why bounds and a step make no grid. -/
inductive GridError where
  | notFinite
  | stepNotPositive
  | boundsNotAscending
  | stepTooSmall
deriving DecidableEq, Repr

namespace Grid

/-- The number of points that a step may divide a range into. -/
def maxPoints : Nat := 1000000

/-- How far a point may pass the end of the range, so that rounding does not cost
the last point. -/
def endTolerance : Float := 1e-9

/-- The number of indices: points are counted by words of 32 bits. The count overflows
behind the last index, which stops a checked build and takes an unchecked one back to
the first index. What is said here of points ends before the overflow. -/
def indexCount : Nat := 4294967296

/-- The first objection against bounds and a step. -/
def objection? (first last step : Float) : Option GridError :=
  if !first.isFinite || !last.isFinite || !step.isFinite then some .notFinite
  else if step ≤ 0.0 then some .stepNotPositive
  else if first ≥ last then some .boundsNotAscending
  else if (last - first) / step ≥ Float.ofNat maxPoints then some .stepTooSmall
  else none

end Grid

/-- The details of the message for an objection. -/
def GridError.details : GridError → String
  | .notFinite => "bounds and step must be finite numbers"
  | .stepNotPositive => "step size must be positive"
  | .boundsNotAscending => "x-min must be less than x-max"
  | .stepTooSmall =>
    "step size is too small, at most " ++ toString Grid.maxPoints ++ " points can be sampled"

/-- Bounds and a step that met no objection. -/
structure Grid where
  first : Float
  last : Float
  step : Float
  valid : Grid.objection? first last step = none

namespace Grid

/-- The grid with given bounds and step, if there is no objection. -/
def ofBounds (first last step : Float) : Except GridError Grid :=
  match valid : objection? first last step with
  | none => .ok ⟨first, last, step, valid⟩
  | some e => .error e

/-- The point with an index. -/
def point (grid : Grid) (index : Nat) : Float :=
  grid.first + (UInt32.ofNat index).toFloat * grid.step

/-- Whether a point is not past the end. -/
def covers (grid : Grid) (x : Float) : Bool :=
  x ≤ grid.last + endTolerance

/-- The first index from `index` on whose point is past the end, looking at no more
than `budget` indices. -/
def endFrom (grid : Grid) (index : Nat) : Nat → Nat
  | 0 => index
  | budget + 1 =>
    if grid.covers (grid.point index) then grid.endFrom (index + 1) budget else index

/-- The number of points, counted no further than `limit`. -/
def countUpTo (grid : Grid) (limit : Nat) : Nat :=
  grid.endFrom 0 limit

/-- The points of a grid in order. If even the point with the last index is not past the
end, these are the points before the count overflows (`indexCount`), and the grid does
not end with them. -/
def points (grid : Grid) : List Float :=
  (List.range (grid.countUpTo indexCount)).map grid.point

end Grid

end Calculator
