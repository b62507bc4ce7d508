import Calculator.Numeral
import Calculator.Tree

/-!
The outline of a tree: a line for each node, indented by its depth.
-/

namespace Calculator

/-- The line of a node with a given value. -/
def Kind.line (kind : Kind) (value : Float) : String :=
  match kind with
  | .number => "Number " ++ Numeral.write value
  | .reference name => "Variable " ++ name ++ " = " ++ Numeral.write value
  | .assignment name => "Assignment " ++ name ++ " = " ++ Numeral.write value
  | .negation => "UnaryOp - = " ++ Numeral.write value
  | .operation .impliedMul => "BinaryOp * (implied) = " ++ Numeral.write value
  | .operation op => "BinaryOp " ++ op.symbol ++ " = " ++ Numeral.write value
  | .call name => "FunctionCall " ++ name ++ " = " ++ Numeral.write value

namespace Tree

/-- What a node is indented by beyond its parent. -/
def indentStep : String := "  "

mutual

/-- The outline of a tree whose root is indented by `indent`. -/
def outline (indent : String) : Tree → String
  | .number value _ => indent ++ Kind.number.line value ++ "\n"
  | .reference name value _ => indent ++ (Kind.reference name).line value ++ "\n"
  | .assignment name right value _ =>
    indent ++ (Kind.assignment name).line value ++ "\n" ++ right.outline (indent ++ indentStep)
  | .negation operand value _ =>
    indent ++ Kind.negation.line value ++ "\n" ++ operand.outline (indent ++ indentStep)
  | .operation op left right value _ =>
    indent ++ (Kind.operation op).line value ++ "\n" ++
      left.outline (indent ++ indentStep) ++ right.outline (indent ++ indentStep)
  | .call name arguments value _ =>
    indent ++ (Kind.call name).line value ++ "\n" ++
      outlineOfList (indent ++ indentStep) arguments

/-- The outlines of several trees, one after the other. -/
def outlineOfList (indent : String) : List Tree → String
  | [] => ""
  | tree :: trees => tree.outline indent ++ outlineOfList indent trees

end

end Tree

end Calculator
