import Calculator.Formula

/-!
The grammar of statements.

`Derives level f tokens` says that the tokens spell the expression `f` and that it
binds at least as tightly as `level`. `DerivesStatement` also allows an assignment,
at the front of a statement and nowhere else. Both are relations on tokens alone:
nothing is evaluated.
-/

namespace Calculator

/-- The spellings of an expression. -/
inductive Derives : Level → Formula → List Lexeme → Prop where
  | number {value : Float} {p : Nat} :
      Derives .primary (.number value p) [⟨.number value, p⟩]
  | reference {name : String} {p : Nat} :
      Derives .primary (.reference name p) [⟨.identifier name, p⟩]
  | group {f : Formula} {tokens : List Lexeme} {p q : Nat} :
      Derives .sum f tokens →
      Derives .primary f (⟨.openParen, p⟩ :: tokens ++ [⟨.closeParen, q⟩])
  | call {name : String} {f : Formula} {tokens : List Lexeme} {p q r : Nat} :
      Derives .sum f tokens →
      Derives .primary (.call name f p)
        (⟨.identifier name, p⟩ :: ⟨.openParen, q⟩ :: tokens ++ [⟨.closeParen, r⟩])
  | emptyCall {name : String} {p q r : Nat} :
      Derives .primary (.emptyCall name p)
        [⟨.identifier name, p⟩, ⟨.openParen, q⟩, ⟨.closeParen, r⟩]
  | negation {f : Formula} {tokens : List Lexeme} {p : Nat} :
      Derives .negation f tokens →
      Derives .negation (.negation f p) (⟨.minus, p⟩ :: tokens)
  | operation {op : Operator} {sign : Token} {f g : Formula} {left right : List Lexeme}
      {p : Nat} :
      sign.operator? = some op →
      Derives op.leftLevel f left → Derives op.rightLevel g right →
      Derives op.level (.operation op f g p) (left ++ ⟨sign, p⟩ :: right)
  | impliedProduct {f g : Formula} {left right : List Lexeme} {before after : Lexeme} :
      before.token.impliesProduct after.token →
      Derives .product f (left ++ [before]) → Derives .negation g (after :: right) →
      Derives .product (.operation .impliedMul f g after.position)
        (left ++ before :: after :: right)
  | looser {a b : Level} {f : Formula} {tokens : List Lexeme} :
      a ≤ b → Derives b f tokens → Derives a f tokens

/-- The spellings of a statement. -/
inductive DerivesStatement : Formula → List Lexeme → Prop where
  | expression {f : Formula} {tokens : List Lexeme} :
      Derives .sum f tokens → DerivesStatement f tokens
  | assignment {name : String} {f : Formula} {tokens : List Lexeme} {p q : Nat} :
      Derives .sum f tokens →
      DerivesStatement (.assignment name f p)
        (⟨.identifier name, p⟩ :: ⟨.assign, q⟩ :: tokens)

/-- The tokens that count: those before the first end of input. -/
def beforeEnd (tokens : List Lexeme) : List Lexeme :=
  tokens.takeWhile fun lexeme => lexeme.token ≠ .endOfInput

end Calculator
