import Calculator.Plot

/-!
Requests: what can be asked of bindings, one thing after the other.

A variable can be set to a value, a statement can be evaluated, and a statement can be sampled over
a grid. Each request is served in the bindings that the ones before it left, whether they failed
or not.
-/

namespace Calculator

/-- A use of bindings that may write to them. -/
inductive Request where
  | set (name : String) (value : Float)
  | evaluate (text : String)
  | sample (text : String) (grid : Grid)

/-- The bindings after a request. -/
def Request.serve (bindings : Bindings) : Request → Bindings
  | .set name value => bindings.set name value
  | .evaluate text => (execute text bindings).2
  | .sample text grid => (Calculator.sample text grid bindings).2

/-- The bindings after several requests in turn. -/
def serveAll (bindings : Bindings) (requests : List Request) : Bindings :=
  requests.foldl Request.serve bindings

end Calculator
