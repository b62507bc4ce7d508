import Calculator.Plot

/-!
The protocol of sampling.

A text is sampled by executing it at one point after the other, each time from the text
itself: the point is bound, the text is scanned and evaluated, its value is collected.
`sampleAt` does this over any list of points. `sample` scans once; that it keeps to the
protocol is a theorem.
-/

namespace Calculator

/-- Executes a text at some points in turn. What it writes at a point stays for the points
after it, and the first failure ends it. -/
def sampleAt (text : String) (bindings : Bindings) :
    List Float → Except PlotError (List (Float × Float)) × Bindings
  | [] => (.ok [], bindings)
  | x :: points =>
    match execute text (bindings.set sampleVariable x) with
    | (.error e, bindings) => (.error (.atPoint x e), bindings)
    | (.ok tree, bindings) =>
      let (values, bindings) := sampleAt text bindings points
      (((x, tree.value) :: ·) <$> values, bindings)

end Calculator
