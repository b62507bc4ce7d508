import Calculator.Formula
import Calculator.Function
import Calculator.Tree

/-!
Reading a tree back.

`Tree.reading` lists the tokens that a tree stands for, from left to right: all that
was written but parentheses, the equals sign and the end. `Tree.formula?` forgets the
values of a tree; there is no formula for a call with several arguments.

`Tree.SpelledBy` keeps the parentheses: it is a relation between an expression and the tokens
that are its text, part by part.
-/

namespace Calculator.Tree

mutual

/-- The tokens that stand for the nodes of a tree, from left to right. An implied
product has none of its own. -/
def reading : Tree → List Lexeme
  | .number value p => [⟨.number value, p⟩]
  | .reference name _ p => [⟨.identifier name, p⟩]
  | .assignment name right _ p => ⟨.identifier name, p⟩ :: right.reading
  | .negation operand _ p => ⟨.minus, p⟩ :: operand.reading
  | .operation .impliedMul left right _ _ => left.reading ++ right.reading
  | .operation op left right _ p => left.reading ++ ⟨.ofOperator op, p⟩ :: right.reading
  | .call name arguments _ p => ⟨.identifier name, p⟩ :: readingOfList arguments

/-- The tokens of several trees, one tree after the other. -/
def readingOfList : List Tree → List Lexeme
  | [] => []
  | tree :: trees => tree.reading ++ readingOfList trees

end

mutual

/-- What a tree says, without the values. -/
def formula? : Tree → Option Formula
  | .number value p => some (.number value p)
  | .reference name _ p => some (.reference name p)
  | .assignment name right _ p => do return .assignment name (← right.formula?) p
  | .negation operand _ p => do return .negation (← operand.formula?) p
  | .operation op left right _ p => do
    return .operation op (← left.formula?) (← right.formula?) p
  | .call name arguments _ p => do
    match ← formulasOfList? arguments with
    | [] => some (.emptyCall name p)
    | [argument] => some (.call name argument p)
    | _ => none

/-- What several trees say. -/
def formulasOfList? : List Tree → Option (List Formula)
  | [] => some []
  | tree :: trees => do return (← tree.formula?) :: (← formulasOfList? trees)

end

/-- A tree at the root of another one, or below it. -/
inductive Within (part : Tree) : Tree → Prop where
  | root : Within part part
  | child {tree child : Tree} : child ∈ tree.children → Within part child → Within part tree

/-- The texts of an expression. Each part has its own stretch of the text, possibly in parentheses,
and the right factor of an implied product begins where the left one ends. -/
inductive SpelledBy : Tree → List Lexeme → Prop where
  | number {value : Float} {p : Nat} : SpelledBy (.number value p) [⟨.number value, p⟩]
  | reference {name : String} {value : Float} {p : Nat} :
      SpelledBy (.reference name value p) [⟨.identifier name, p⟩]
  | group {tree : Tree} {text : List Lexeme} {p q : Nat} :
      SpelledBy tree text → SpelledBy tree (⟨.openParen, p⟩ :: text ++ [⟨.closeParen, q⟩])
  | call {name : String} {argument : Tree} {value : Float} {text : List Lexeme} {p q r : Nat} :
      (Function.ofName? name).isSome → SpelledBy argument text →
      SpelledBy (.call name [argument] value p)
        (⟨.identifier name, p⟩ :: ⟨.openParen, q⟩ :: text ++ [⟨.closeParen, r⟩])
  | negation {operand : Tree} {value : Float} {text : List Lexeme} {p : Nat} :
      SpelledBy operand text → SpelledBy (.negation operand value p) (⟨.minus, p⟩ :: text)
  | operation {op : Operator} {sign : Token} {left right : Tree} {value : Float}
      {leftText rightText : List Lexeme} {p : Nat} :
      sign.operator? = some op → SpelledBy left leftText → SpelledBy right rightText →
      SpelledBy (.operation op left right value p) (leftText ++ ⟨sign, p⟩ :: rightText)
  | impliedProduct {left right : Tree} {value : Float} {first : Lexeme}
      {leftText rightText : List Lexeme} :
      SpelledBy left leftText → SpelledBy right (first :: rightText) →
      SpelledBy (.operation .impliedMul left right value first.position)
        (leftText ++ first :: rightText)

end Calculator.Tree
