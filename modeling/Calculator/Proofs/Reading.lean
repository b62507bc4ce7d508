import Calculator.Proofs.Session

/-!
What becomes of the tokens of a statement.

The tree of an expression is spelled by all of its tokens (`Derives.spelledBy`). So nothing is lost
on the way and nothing changes places: reading the tree back gives every token that is not a
parenthesis (`Tree.SpelledBy.reading_eq`), each part is spelled by a stretch of the tokens
(`Tree.SpelledBy.within`), and what holds of an expression because of how it is spelled holds of
all its parts (`evaluateTokens_reading`).
-/

namespace Calculator

open Assembly

variable {tokens : List Lexeme} {bindings : Bindings} {tree : Tree}

/-! ### Expressions are spelled by their tokens -/

theorem call_nil_ne_ok {name : String} {value : Float} : call name [] ≠ .ok value := by
  intro calls
  obtain ⟨f, x, -, ⟨⟩, -⟩ := call_eq_ok.mp calls

/-- The grammar assigns the text to the parts of the tree. -/
theorem Derives.spelledBy {level : Level} {f : Formula} {used : List Lexeme}
    (derives : Derives level f used) (built : f.build (Tree.builder bindings) = .ok tree) :
    tree.SpelledBy used := by
  induction derives generalizing tree with
  | number =>
    cases built
    exact .number
  | reference =>
    obtain ⟨value, -, ⟨⟩⟩ := bind_eq_ok.mp (Fault.locate_eq_ok.mp built)
    exact .reference
  | group _ ih => exact .group (ih built)
  | call _ ih =>
    obtain ⟨_, looked, built⟩ := bind_eq_ok.mp built
    obtain ⟨argument, argumentBuilt, built⟩ := bind_eq_ok.mp built
    obtain ⟨value, -, ⟨⟩⟩ := bind_eq_ok.mp (Fault.locate_eq_ok.mp built)
    exact .call (isSome_of_callable looked) (ih argumentBuilt)
  | emptyCall =>
    obtain ⟨_, -, built⟩ := bind_eq_ok.mp built
    obtain ⟨value, calls, -⟩ := bind_eq_ok.mp (Fault.locate_eq_ok.mp built)
    exact absurd calls call_nil_ne_ok
  | negation _ ih =>
    obtain ⟨operand, operandBuilt, built⟩ := bind_eq_ok.mp built
    obtain ⟨value, -, ⟨⟩⟩ := bind_eq_ok.mp (Fault.locate_eq_ok.mp built)
    exact .negation (ih operandBuilt)
  | operation sign _ _ ihl ihr =>
    obtain ⟨left, leftBuilt, built⟩ := bind_eq_ok.mp built
    obtain ⟨right, rightBuilt, built⟩ := bind_eq_ok.mp built
    obtain ⟨value, -, ⟨⟩⟩ := bind_eq_ok.mp (Fault.locate_eq_ok.mp built)
    exact .operation sign (ihl leftBuilt) (ihr rightBuilt)
  | impliedProduct _ _ _ ihl ihr =>
    obtain ⟨left, leftBuilt, built⟩ := bind_eq_ok.mp built
    obtain ⟨right, rightBuilt, built⟩ := bind_eq_ok.mp built
    obtain ⟨value, -, ⟨⟩⟩ := bind_eq_ok.mp (Fault.locate_eq_ok.mp built)
    rw [List.append_cons]
    exact .impliedProduct (ihl leftBuilt) (ihr rightBuilt)
  | looser _ _ ih => exact ih built

/-! ### What the spelling says -/

/-- The parentheses, which leave no node. -/
def Token.isParen : Token → Bool
  | .openParen | .closeParen => true
  | _ => false

theorem Token.not_isParen_of_operator? {sign : Token} {op : Operator}
    (h : sign.operator? = some op) : sign.isParen = false ∧ sign = .ofOperator op ∧
      op ≠ .impliedMul := by
  cases sign <;> cases h <;> exact ⟨rfl, rfl, Operator.noConfusion⟩

namespace Tree

theorem reading_operation {op : Operator} (left right : Tree) (value : Float) (p : Nat)
    (explicit : op ≠ .impliedMul) :
    (operation op left right value p).reading =
      left.reading ++ ⟨.ofOperator op, p⟩ :: right.reading := by
  cases op <;> first | rfl | exact absurd rfl explicit

namespace SpelledBy

variable {text : List Lexeme} {part : Tree}

/-- Only the parentheses of the text are missing in the reading. -/
theorem reading_eq (spelled : tree.SpelledBy text) :
    tree.reading = text.filter fun lexeme => !lexeme.token.isParen := by
  induction spelled with
  | number | reference => rfl
  | group _ ih => simp [ih, Token.isParen]
  | call _ _ ih => simp [reading, readingOfList, ih, Token.isParen]
  | negation _ ih => simp [reading, ih, Token.isParen]
  | operation sign _ _ ihl ihr =>
    obtain ⟨notParen, rfl, explicit⟩ := Token.not_isParen_of_operator? sign
    simp [reading_operation _ _ _ _ explicit, ihl, ihr, notParen]
  | impliedProduct _ _ ihl ihr => rw [reading, ihl, ihr, List.filter_append]

theorem isAssignment_eq (spelled : tree.SpelledBy text) : tree.isAssignment = false := by
  induction spelled with
  | group _ ih => exact ih
  | _ => rfl

/-- A call has one argument, and its name is that of a function. -/
theorem call_eq {name : String} {arguments : List Tree} {value : Float} {p : Nat}
    (spelled : (Tree.call name arguments value p).SpelledBy text) :
    (∃ argument, arguments = [argument]) ∧ (Function.ofName? name).isSome := by
  generalize tree_eq : Tree.call name arguments value p = tree at spelled
  induction spelled with
  | group _ ih => exact ih tree_eq
  | call builtin _ =>
    cases tree_eq
    exact ⟨⟨_, rfl⟩, builtin⟩
  | _ => cases tree_eq

/-- An implied product is where its right factor begins. -/
theorem impliedProduct_eq {left right : Tree} {value : Float} {p : Nat}
    (spelled : (Tree.operation .impliedMul left right value p).SpelledBy text) :
    ∃ before leftText first rightText after,
      text = before ++ leftText ++ first :: rightText ++ after ∧ left.SpelledBy leftText ∧
        right.SpelledBy (first :: rightText) ∧ p = first.position := by
  generalize tree_eq : Tree.operation .impliedMul left right value p = tree at spelled
  induction spelled with
  | @group _ _ opened closed _ ih =>
    obtain ⟨before, leftText, first, rightText, after, rfl, spelled⟩ := ih tree_eq
    exact ⟨⟨.openParen, opened⟩ :: before, leftText, first, rightText,
      after ++ [⟨.closeParen, closed⟩], by simp, spelled⟩
  | operation sign _ _ =>
    cases tree_eq
    exact absurd rfl (Token.not_isParen_of_operator? sign).2.2
  | impliedProduct spelledLeft spelledRight =>
    cases tree_eq
    exact ⟨[], _, _, _, [], by simp, spelledLeft, spelledRight, rfl⟩
  | _ => cases tree_eq

theorem child (spelled : tree.SpelledBy text) (mem : part ∈ tree.children) :
    ∃ stretch, stretch <:+: text ∧ part.SpelledBy stretch := by
  induction spelled with
  | number | reference => cases mem
  | group _ ih =>
    obtain ⟨stretch, inside, spelled⟩ := ih mem
    refine ⟨stretch, inside.trans ?_, spelled⟩
    exact ⟨[_], [_], rfl⟩
  | call _ argument =>
    cases List.mem_singleton.mp mem
    exact ⟨_, ⟨[_, _], [_], rfl⟩, argument⟩
  | negation operand =>
    cases List.mem_singleton.mp mem
    exact ⟨_, ⟨[_], [], List.append_nil _⟩, operand⟩
  | @operation _ sign _ _ _ leftText _ p _ left right =>
    rcases List.mem_cons.mp mem with rfl | mem
    · exact ⟨_, ⟨[], _, rfl⟩, left⟩
    · cases List.mem_singleton.mp mem
      exact ⟨_, ⟨leftText ++ [⟨sign, p⟩], [], by simp⟩, right⟩
  | @impliedProduct _ _ _ _ leftText _ left right =>
    rcases List.mem_cons.mp mem with rfl | mem
    · exact ⟨_, ⟨[], _, rfl⟩, left⟩
    · cases List.mem_singleton.mp mem
      exact ⟨_, ⟨leftText, [], List.append_nil _⟩, right⟩

/-- Each part of an expression is an expression that is spelled by a stretch of the text. -/
theorem within (spelled : tree.SpelledBy text) (within : part.Within tree) :
    ∃ stretch, stretch <:+: text ∧ part.SpelledBy stretch := by
  induction within generalizing text with
  | root => exact ⟨text, List.infix_refl text, spelled⟩
  | child mem _ ih =>
    obtain ⟨stretch, inside, spelled⟩ := spelled.child mem
    obtain ⟨inner, deeper, spelled⟩ := ih spelled
    exact ⟨inner, deeper.trans inside, spelled⟩

end SpelledBy

end Tree

/-! ### Statements -/

/-- Tokens without the equals sign behind the target of an assignment. -/
def withoutTargetSign : List Lexeme → List Lexeme
  | ⟨.identifier name, p⟩ :: ⟨.assign, _⟩ :: rest => ⟨.identifier name, p⟩ :: rest
  | tokens => tokens

theorem withoutTargetSign_of_derives {level : Level} {f : Formula}
    (derives : Derives level f tokens) : withoutTargetSign tokens = tokens := by
  unfold withoutTargetSign
  split
  · have inside := derives.inExpression ⟨.assign, _⟩ (List.mem_cons_of_mem _ List.mem_cons_self)
    cases inside
  · rfl

/-- The tokens of a statement spell its tree, or the right-hand side of its tree behind the target
of the assignment. -/
theorem spelledBy_of_evaluateTokens (evaluated : evaluateTokens tokens bindings = .ok tree) :
    (tree.SpelledBy (beforeEnd tokens) ∧
      withoutTargetSign (beforeEnd tokens) = beforeEnd tokens) ∨
    ∃ name p q text right value,
      beforeEnd tokens = ⟨.identifier name, p⟩ :: ⟨.assign, q⟩ :: text ∧
        right.SpelledBy text ∧ tree = .assignment name right value p := by
  obtain ⟨f, derives, built⟩ := exists_derivesStatement_of_assembleStatement evaluated
  generalize beforeEnd tokens = used at derives ⊢
  cases derives with
  | expression derives => exact .inl ⟨derives.spelledBy built, withoutTargetSign_of_derives derives⟩
  | assignment derives =>
    obtain ⟨right, rightBuilt, ⟨⟩⟩ := bind_eq_ok.mp built
    exact .inr ⟨_, _, _, _, right, _, rfl, derives.spelledBy rightBuilt, rfl⟩

section Parts

variable {part child : Tree}

theorem exists_stretch_of_child (evaluated : evaluateTokens tokens bindings = .ok tree)
    (mem : child ∈ tree.children) :
    ∃ stretch, stretch <:+: beforeEnd tokens ∧ child.SpelledBy stretch := by
  rcases spelledBy_of_evaluateTokens evaluated with
    ⟨spelled, -⟩ | ⟨name, p, q, text, right, value, begins, spelled, rfl⟩
  · exact spelled.child mem
  · cases List.mem_singleton.mp mem
    exact ⟨text, begins ▸ ⟨[_, _], [], List.append_nil _⟩, spelled⟩

/-- Only the root can be an assignment; everything else is spelled by a stretch of the tokens. -/
theorem exists_stretch (evaluated : evaluateTokens tokens bindings = .ok tree)
    (within : part.Within tree) (expression : part.isAssignment = false) :
    ∃ stretch, stretch <:+: beforeEnd tokens ∧ part.SpelledBy stretch := by
  cases within with
  | root =>
    rcases spelledBy_of_evaluateTokens evaluated with
      ⟨spelled, -⟩ | ⟨name, p, q, text, right, value, -, -, rfl⟩
    · exact ⟨_, List.infix_refl _, spelled⟩
    · cases expression
  | child mem within =>
    obtain ⟨stretch, inside, spelled⟩ := exists_stretch_of_child evaluated mem
    obtain ⟨inner, deeper, spelled⟩ := spelled.within within
    exact ⟨inner, deeper.trans inside, spelled⟩

/-- Reading the tree of a statement back gives its tokens, apart from the parentheses and the equals
sign of an assignment. The factors of an implied product have adjacent stretches of the tokens,
and the product is where the second one begins. Calls have one argument and the name of a
function, and an assignment has no other one inside. -/
theorem evaluateTokens_reading (evaluated : evaluateTokens tokens bindings = .ok tree) :
    tree.reading =
      (withoutTargetSign (beforeEnd tokens)).filter (fun lexeme => !lexeme.token.isParen) ∧
    (∀ left right value p, (Tree.operation .impliedMul left right value p).Within tree →
      ∃ before leftText first rightText after,
        beforeEnd tokens = before ++ leftText ++ first :: rightText ++ after ∧
        left.SpelledBy leftText ∧ right.SpelledBy (first :: rightText) ∧ p = first.position) ∧
    (∀ name arguments value p, (Tree.call name arguments value p).Within tree →
      (∃ argument, arguments = [argument]) ∧ (Function.ofName? name).isSome) ∧
    ∀ child ∈ tree.children, ∀ part : Tree, part.Within child → part.isAssignment = false := by
  refine ⟨?_, ?_, ?_, ?_⟩
  · rcases spelledBy_of_evaluateTokens evaluated with
      ⟨spelled, unchanged⟩ | ⟨name, p, q, text, right, value, begins, spelled, rfl⟩
    · rw [unchanged, spelled.reading_eq]
    · rw [begins, Tree.reading, spelled.reading_eq, withoutTargetSign]
      rfl
  · intro left right value p within
    obtain ⟨stretch, ⟨front, back, tokens_eq⟩, spelled⟩ := exists_stretch evaluated within rfl
    obtain ⟨before, leftText, first, rightText, after, rfl, factors⟩ := spelled.impliedProduct_eq
    exact ⟨front ++ before, leftText, first, rightText, after ++ back,
      by simp [← tokens_eq], factors⟩
  · intro name arguments value p within
    obtain ⟨stretch, -, spelled⟩ := exists_stretch evaluated within rfl
    exact spelled.call_eq
  · intro child mem part within
    obtain ⟨stretch, -, spelled⟩ := exists_stretch_of_child evaluated mem
    obtain ⟨inner, -, spelled⟩ := spelled.within within
    exact spelled.isAssignment_eq

/-- An implied product whose second factor is in parentheses, on the right of an assignment. -/
theorem evaluateTokens_reading_product :
    ∃ tree,
      evaluateTokens [⟨.identifier "z", 0⟩, ⟨.assign, 2⟩, ⟨.number 2.0, 4⟩, ⟨.openParen, 5⟩,
        ⟨.number 3.0, 6⟩, ⟨.closeParen, 7⟩, ⟨.endOfInput, 8⟩] .empty = .ok tree ∧
      tree.reading = [⟨.identifier "z", 0⟩, ⟨.number 2.0, 4⟩, ⟨.number 3.0, 6⟩] := by
  have evaluated :
      evaluateTokens [⟨.identifier "z", 0⟩, ⟨.assign, 2⟩, ⟨.number 2.0, 4⟩, ⟨.openParen, 5⟩,
        ⟨.number 3.0, 6⟩, ⟨.closeParen, 7⟩, ⟨.endOfInput, 8⟩] .empty =
        .ok (.assignment "z" (.operation .impliedMul (.number 2.0 4) (.number 3.0 6) 6.0 5) 6.0
          0) := rfl
  exact ⟨_, evaluated, (evaluateTokens_reading evaluated).1⟩

end Parts

end Calculator
