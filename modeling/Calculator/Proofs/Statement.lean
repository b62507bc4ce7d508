import Calculator.Proofs.Grammar
import Calculator.Statement
import Calculator.Tree.Reading

/-!
Statements are read by the grammar and evaluated as they are read.

`evaluateTokens` assembles a statement and evaluates it at the same time. Here the two
are told apart: what the tokens say is the formula that the grammar derives, and the
evaluation is the walk `Formula.build` over it (`assembleStatement_eq_build`).
Conversely, a statement that has a tree is derived by the grammar
(`exists_derivesStatement_of_assembleStatement`). Both hold for every builder. With
`Formula.builder` they say that the grammar is unambiguous, and with `Tree.builder` that
tokens have a tree exactly if they are a statement that can be evaluated.

Only the tokens before the first end of input count (`Ended`, `beforeEnd_append`).
-/

namespace Calculator

open Assembly

variable {α : Type} {b : Builder α} {level : Level} {f : Formula} {used rest tokens : List Lexeme}

/-! ### The end of the tokens -/

/-- Nothing that counts is left: the tokens are used up, or the end of input is next. -/
def Ended (rest : List Lexeme) : Prop :=
  ∀ lexeme ∈ rest.head?, lexeme.token = .endOfInput

theorem Ended.stops (ended : Ended rest) : Stops level rest := by
  intro lexeme next op joins
  rw [ended lexeme next] at joins
  cases joins

theorem Ended.detached (ended : Ended rest) : Detached used rest := by
  intro name position last lexeme next
  rw [ended lexeme next]
  exact ⟨nofun, nofun⟩

theorem exists_eq_beforeEnd_append (tokens : List Lexeme) :
    ∃ rest, tokens = beforeEnd tokens ++ rest ∧ Ended rest := by
  refine ⟨_, List.takeWhile_append_dropWhile.symm, ?_⟩
  intro lexeme next
  have stopped := List.head?_dropWhile_not
    (fun lexeme : Lexeme => decide (lexeme.token ≠ .endOfInput)) tokens
  rw [Option.mem_def.mp next] at stopped
  simpa using stopped

/-- The tokens that expressions are made of. -/
def Token.inExpression : Token → Bool
  | .assign | .blank | .endOfInput => false
  | _ => true

theorem Token.inExpression_of_operator? {sign : Token} {op : Operator}
    (h : sign.operator? = some op) : sign.inExpression := by
  cases sign <;> first | rfl | cases h

theorem Derives.inExpression (derives : Derives level f used) :
    ∀ lexeme ∈ used, lexeme.token.inExpression := by
  induction derives with
  | number | reference | emptyCall => simp [Token.inExpression]
  | group _ ih | call _ ih | negation _ ih =>
    simpa [Token.inExpression, or_imp, forall_and] using ih
  | operation sign _ _ ihl ihr =>
    simp only [List.forall_mem_append, List.forall_mem_cons]
    exact ⟨ihl, Token.inExpression_of_operator? sign, ihr⟩
  | impliedProduct _ _ _ ihl ihr =>
    simp only [List.forall_mem_append, List.forall_mem_cons] at ihl ihr ⊢
    exact ⟨ihl.1, ihl.2.1, ihr⟩
  | looser _ _ ih => exact ih

theorem beforeEnd_cons {lexeme : Lexeme} (plain : lexeme.token ≠ .endOfInput) :
    beforeEnd (lexeme :: tokens) = lexeme :: beforeEnd tokens :=
  List.takeWhile_cons_of_pos (decide_eq_true plain)

theorem beforeEnd_append (derives : Derives level f used) (ended : Ended rest) :
    beforeEnd (used ++ rest) = used := by
  have inner (lexeme : Lexeme) (mem : lexeme ∈ used) : lexeme.token ≠ .endOfInput := by
    intro ends
    have inside := derives.inExpression lexeme mem
    rw [ends] at inside
    cases inside
  rw [beforeEnd, List.takeWhile_append_of_pos fun lexeme mem => decide_eq_true (inner lexeme mem)]
  cases rest with
  | nil => simp
  | cons next rest => simp [ended next rfl]

/-! ### Whole expressions -/

/-- An expression up to the end of input is carried out as the walk over it does. -/
theorem assembleAll_eq_build (derives : Derives .sum f (beforeEnd tokens)) :
    assembleAll b tokens = f.build b := by
  obtain ⟨rest, tokens_eq, ended⟩ := exists_eq_beforeEnd_append tokens
  have reads : run b .sum .start (beforeEnd tokens ++ rest) = _ :=
    run_derives derives (Level.le_refl _) ended.stops.completes ended.detached
  rw [assembleAll, assemble, tokens_eq, reads]
  cases f.build b with
  | error e => rfl
  | ok value =>
    rw [ok_bind, run_stop ended.stops]
    cases rest with
    | nil => rfl
    | cons next rest => simp only [ok_bind, ended next rfl]; rfl

theorem exists_derives_of_assembleAll {value : α} (h : assembleAll b tokens = .ok value) :
    ∃ f, Derives .sum f (beforeEnd tokens) ∧ f.build b = .ok value := by
  obtain ⟨⟨value', rest⟩, assembled, checks⟩ := bind_eq_ok.mp h
  obtain ⟨f, used, rfl, derives, builds, stops, detached⟩ := assemble_eq_ok_iff.mp assembled
  have ended : Ended rest ∧ value' = value := by
    cases rest with
    | nil =>
      cases checks
      exact ⟨nofun, rfl⟩
    | cons next rest =>
      obtain ⟨token, position⟩ := next
      cases token with
      | endOfInput =>
        cases checks
        exact ⟨by rintro _ ⟨⟩; rfl, rfl⟩
      | _ => cases checks
  obtain ⟨ended, rfl⟩ := ended
  exact ⟨f, (beforeEnd_append derives ended).symm ▸ derives, builds⟩

/-! ### Statements -/

/-- Tokens that do not begin with a name and an equals sign make an expression. -/
theorem assembleStatement_eq_assembleAll
    (h : ∀ name p q rest, tokens ≠ ⟨.identifier name, p⟩ :: ⟨.assign, q⟩ :: rest) :
    assembleStatement b tokens = assembleAll b tokens := by
  unfold assembleStatement
  split
  · exact absurd rfl (h _ _ _ _)
  · rfl

theorem beforeEnd_assignment {name : String} {p q : Nat} {rest : List Lexeme} :
    beforeEnd (⟨.identifier name, p⟩ :: ⟨.assign, q⟩ :: rest) =
      ⟨.identifier name, p⟩ :: ⟨.assign, q⟩ :: beforeEnd rest := by
  simp [beforeEnd]

/-- What a statement says is carried out as the walk over it does, for every builder. -/
theorem assembleStatement_eq_build (derives : DerivesStatement f (beforeEnd tokens)) :
    assembleStatement b tokens = f.build b := by
  generalize used_eq : beforeEnd tokens = used at derives
  cases derives with
  | expression derives =>
    rw [assembleStatement_eq_assembleAll, assembleAll_eq_build (used_eq.symm ▸ derives)]
    rintro name p q rest rfl
    rw [beforeEnd_assignment] at used_eq
    subst used_eq
    have inside := derives.inExpression ⟨.assign, q⟩ (by simp)
    cases inside
  | @assignment name f used p q derives =>
    obtain ⟨rest, tokens_eq, ended⟩ := exists_eq_beforeEnd_append tokens
    rw [used_eq] at tokens_eq
    subst tokens_eq
    have value_eq : assembleAll b (used ++ rest) = f.build b :=
      assembleAll_eq_build (by rwa [beforeEnd_append derives ended])
    simp only [assembleStatement, List.cons_append, value_eq, Formula.build]

theorem exists_derivesStatement_of_assembleStatement {value : α}
    (h : assembleStatement b tokens = .ok value) :
    ∃ f, DerivesStatement f (beforeEnd tokens) ∧ f.build b = .ok value := by
  unfold assembleStatement at h
  split at h
  · obtain ⟨right, assembled, ⟨⟩⟩ := bind_eq_ok.mp h
    obtain ⟨f, derives, builds⟩ := exists_derives_of_assembleAll assembled
    rw [beforeEnd_assignment]
    refine ⟨_, .assignment derives, ?_⟩
    rw [Formula.build, builds, ok_bind]
    rfl
  · obtain ⟨f, derives, builds⟩ := exists_derives_of_assembleAll h
    exact ⟨f, .expression derives, builds⟩

/-! ### Formulas and trees -/

theorem Fault.locate_eq_ok {position : Nat} {result : Except Fault α} {value : α} :
    Fault.locate position result = .ok value ↔ result = .ok value := by
  cases result with
  | error fault =>
    constructor
    · intro located
      cases located
    · intro failed
      cases failed
  | ok found =>
    constructor
    · intro located
      cases located
      rfl
    · intro found_eq
      cases found_eq
      rfl

/-- A call goes on to its argument only if it is one of a function. -/
theorem isSome_of_callable {bindings : Bindings} {name : String} {p : Nat}
    (looked : Fault.locate p ((Tree.builder bindings).callable name) = .ok ()) :
    (Function.ofName? name).isSome := by
  have found := Fault.locate_eq_ok.mp looked
  simp only [Tree.builder] at found
  split at found
  · assumption
  · cases found

namespace Formula

/-- Building a formula again gives it back. -/
theorem build_builder (f : Formula) : f.build builder = .ok f := by
  induction f with
  | number | reference => rfl
  | assignment name right p ih => rw [build, ih]; rfl
  | negation operand p ih => rw [build, ih]; rfl
  | operation op left right p ihl ihr => rw [build, ihl, ok_bind, ihr]; rfl
  | call name argument p ih => rw [build, ih]; rfl
  | emptyCall name p => rfl

/-- The tree that a formula becomes has its shape: the same kinds of nodes, names,
operators and positions, in the same order. -/
theorem formula?_of_build {f : Formula} {bindings : Bindings} {tree : Tree}
    (h : f.build (Tree.builder bindings) = .ok tree) : tree.formula? = some f := by
  induction f generalizing tree with
  | number value p => cases h; rfl
  | reference name p =>
    obtain ⟨value, -, ⟨⟩⟩ := bind_eq_ok.mp (Fault.locate_eq_ok.mp h)
    rfl
  | assignment name right p ih =>
    obtain ⟨right, built, ⟨⟩⟩ := bind_eq_ok.mp h
    simp [Tree.builder, Tree.formula?, ih built]
  | negation operand p ih =>
    obtain ⟨operand, built, applied⟩ := bind_eq_ok.mp h
    obtain ⟨value, -, ⟨⟩⟩ := bind_eq_ok.mp (Fault.locate_eq_ok.mp applied)
    simp [Tree.formula?, ih built]
  | operation op left right p ihl ihr =>
    obtain ⟨left, leftBuilt, h⟩ := bind_eq_ok.mp h
    obtain ⟨right, rightBuilt, applied⟩ := bind_eq_ok.mp h
    obtain ⟨value, -, ⟨⟩⟩ := bind_eq_ok.mp (Fault.locate_eq_ok.mp applied)
    simp [Tree.formula?, ihl leftBuilt, ihr rightBuilt]
  | call name argument p ih =>
    obtain ⟨_, -, h⟩ := bind_eq_ok.mp h
    obtain ⟨argument, built, applied⟩ := bind_eq_ok.mp h
    obtain ⟨value, -, ⟨⟩⟩ := bind_eq_ok.mp (Fault.locate_eq_ok.mp applied)
    simp [Tree.formula?, Tree.formulasOfList?, ih built]
  | emptyCall name p =>
    obtain ⟨_, -, applied⟩ := bind_eq_ok.mp h
    obtain ⟨value, -, ⟨⟩⟩ := bind_eq_ok.mp (Fault.locate_eq_ok.mp applied)
    rfl

end Formula

/-- Assembling a formula gives the one that the grammar derives. -/
theorem DerivesStatement.assembleStatement_builder
    (derives : DerivesStatement f (beforeEnd tokens)) :
    assembleStatement Formula.builder tokens = .ok f := by
  rw [assembleStatement_eq_build derives, Formula.build_builder]

/-- The grammar is unambiguous: tokens spell one statement at most. -/
theorem DerivesStatement.unique {g : Formula} (hf : DerivesStatement f (beforeEnd tokens))
    (hg : DerivesStatement g (beforeEnd tokens)) : f = g :=
  Except.ok.inj (hf.assembleStatement_builder.symm.trans hg.assembleStatement_builder)

/-! ### Evaluation -/

/-- Only the tokens before the end of input have a say in the tree. -/
theorem evaluateTokens_of_beforeEnd {others : List Lexeme} {bindings : Bindings} {tree : Tree}
    (same : beforeEnd others = beforeEnd tokens)
    (evaluated : evaluateTokens tokens bindings = .ok tree) :
    evaluateTokens others bindings = .ok tree := by
  obtain ⟨f, derives, built⟩ := exists_derivesStatement_of_assembleStatement evaluated
  rw [← same] at derives
  rw [evaluateTokens, assembleStatement_eq_build derives, built]

section Texts

variable {text : String} {bindings : Bindings} {tree : Tree}

theorem evaluate_of_scan (scanned : scan text = .ok tokens) (bindings : Bindings) :
    evaluate text bindings = (evaluateTokens tokens bindings).mapError .parse := by
  rw [evaluate, scanned]
  rfl

theorem after_mapError {ε ε' : Type} (f : ε → ε') (result : Except ε Tree) :
    bindings.after (result.mapError f) = bindings.after result := by
  cases result <;> rfl

theorem evaluate_eq_ok :
    evaluate text bindings = .ok tree ↔
      ∃ tokens, scan text = .ok tokens ∧ evaluateTokens tokens bindings = .ok tree := by
  rw [evaluate, bind_eq_ok]
  simp only [mapError_eq_ok]

end Texts

/-- Tokens have a tree exactly if the grammar derives what they say and it can be
evaluated. The tree then has the shape of that formula, and no other formula can be
derived. -/
theorem evaluateTokens_eq_ok_iff (tokens : List Lexeme) (bindings : Bindings) :
    (∀ tree, evaluateTokens tokens bindings = .ok tree ↔
      ∃ f, DerivesStatement f (beforeEnd tokens) ∧
        f.build (Tree.builder bindings) = .ok tree) ∧
    (∀ f tree, DerivesStatement f (beforeEnd tokens) →
      evaluateTokens tokens bindings = .ok tree → tree.formula? = some f) ∧
    ∀ f g, DerivesStatement f (beforeEnd tokens) → DerivesStatement g (beforeEnd tokens) →
      f = g := by
  refine ⟨?_, ?_, ?_⟩
  · intro tree
    constructor
    · exact exists_derivesStatement_of_assembleStatement
    · rintro ⟨f, derives, builds⟩
      rw [evaluateTokens, assembleStatement_eq_build derives, builds]
  · intro f tree derives evaluates
    rw [evaluateTokens, assembleStatement_eq_build derives] at evaluates
    exact Formula.formula?_of_build evaluates
  · intro f g hf hg
    exact hf.unique hg

/-- Two adjacent operands are a product. -/
theorem evaluateTokens_eq_ok_adjacent :
    evaluateTokens [⟨.number 2.0, 0⟩, ⟨.identifier "x", 2⟩, ⟨.endOfInput, 3⟩]
        (Bindings.empty.set "x" 3.0) =
      .ok (.operation .impliedMul (.number 2.0 0) (.reference "x" 3.0 2) 6.0 2) := by
  have factor : Derives .negation (.reference "x" 2) [⟨.identifier "x", 2⟩] :=
    .looser (Level.le_primary _) .reference
  have product : Derives .product (.operation .impliedMul (.number 2.0 0) (.reference "x" 2) 2)
      [⟨.number 2.0, 0⟩, ⟨.identifier "x", 2⟩] :=
    @Derives.impliedProduct _ _ [] [] ⟨.number 2.0, 0⟩ _ rfl
      (.looser (Level.le_primary _) .number) factor
  exact ((evaluateTokens_eq_ok_iff _ _).1 _).mpr
    ⟨_, .expression (.looser (Level.sum_le _) product), rfl⟩

/-- Evaluating tokens as they are read is the same as reading them first, into the
formula that the grammar derives, and walking over the formula then: the trees are
equal, and so are the errors. -/
theorem evaluateTokens_eq_build (derives : DerivesStatement f (beforeEnd tokens))
    (bindings : Bindings) :
    assembleStatement Formula.builder tokens = .ok f ∧
      evaluateTokens tokens bindings = f.build (Tree.builder bindings) := by
  constructor
  · exact derives.assembleStatement_builder
  · exact assembleStatement_eq_build derives

/-- The name of a call is looked at before its argument. -/
theorem evaluateTokens_eq_build_unknown :
    evaluateTokens [⟨.identifier "f", 0⟩, ⟨.openParen, 1⟩, ⟨.identifier "y", 2⟩,
        ⟨.closeParen, 3⟩] .empty =
      .error ⟨.fault (.unknownFunction "f"), 0⟩ := by
  have argument : Derives .sum (.reference "y" 2) [⟨.identifier "y", 2⟩] :=
    .looser (Level.le_primary _) .reference
  have call : Derives .primary (.call "f" (.reference "y" 2) 0)
      [⟨.identifier "f", 0⟩, ⟨.openParen, 1⟩, ⟨.identifier "y", 2⟩, ⟨.closeParen, 3⟩] :=
    .call argument
  have derives : DerivesStatement (.call "f" (.reference "y" 2) 0)
      (beforeEnd [⟨.identifier "f", 0⟩, ⟨.openParen, 1⟩, ⟨.identifier "y", 2⟩,
        ⟨.closeParen, 3⟩]) :=
    .expression (.looser (Level.le_primary _) call)
  exact (evaluateTokens_eq_build derives .empty).2

end Calculator
