import Calculator.Proofs.SyntaxError
import Calculator.Proofs.ImpliedProduct
import Mathlib.Data.List.Chain
import Mathlib.Data.List.Nodup

/-!
Faults point at their cause.

`Fault.Blames` says what the position of each fault means in terms of the tokens and the bindings
alone: which operator, name or factor stands there, and for a name that means nothing, that every
such name before it means something.

A state of the assembly keeps the positions of the operations that wait and of the names that are
called. `Stands` says that the tokens have them there. `Explained` adds that the tokens that have
been taken are understood: a name among them is that of a function if it is called, and bound if it
is read. A step keeps this (`Explained.step`), so that where one fails with a fault, its position is
explained (`Explained.blames`).
-/

namespace Calculator

/-! ### What the faults mean -/

section Meaning

variable (tokens : List Lexeme)

/-- A name is read at a position: the token after it neither calls nor assigns it. There is one,
since a text ends with the end of input. -/
def ReadsAt (name : String) (position : Nat) : Prop :=
  ∃ next : Lexeme, [⟨.identifier name, position⟩, next] <:+: tokens ∧
    next.token ≠ .openParen ∧ next.token ≠ .assign

/-- A name is called at a position. -/
def CallsAt (name : String) (position : Nat) : Prop :=
  ∃ opened, [⟨.identifier name, position⟩, ⟨.openParen, opened⟩] <:+: tokens

/-- The right factor of an implied product begins at a position. -/
def ImpliesAt (position : Nat) : Prop :=
  ∃ last next : Lexeme, [last, next] <:+: tokens ∧ last.token.impliesProduct next.token ∧
    next.position = position

/-- What the position of a fault means. -/
def Fault.Blames (bindings : Bindings) (position : Nat) : Fault → Prop
  | .unknownVariable name =>
    bindings.get? name = none ∧ ReadsAt tokens name position ∧
      ∀ other q, ReadsAt tokens other q → q < position → (bindings.get? other).isSome
  | .unknownFunction name =>
    Function.ofName? name = none ∧ CallsAt tokens name position ∧
      ∀ other q, CallsAt tokens other q → q < position → (Function.ofName? other).isSome
  | .argumentCount name expected found =>
    (Function.ofName? name).isSome ∧ expected = 1 ∧ found = 0 ∧ ∃ opened closed,
      [⟨.identifier name, position⟩, ⟨.openParen, opened⟩, ⟨.closeParen, closed⟩] <:+: tokens
  | .divisionByZero => ⟨.slash, position⟩ ∈ tokens
  | .moduloByZero => ⟨.percent, position⟩ ∈ tokens
  | .invalidArgument _ => CallsAt tokens "log" position
  | .notFinite _ =>
    (∃ sign ∈ [Token.plus, .minus, .star, .slash, .percent, .caret], ⟨sign, position⟩ ∈ tokens) ∨
      (∃ name, (Function.ofName? name).isSome ∧ CallsAt tokens name position) ∨
      ImpliesAt tokens position

end Meaning

/-! ### Faults of the operations -/

section Operations

variable {x left right : Float} {fault : Fault} {name : String} {op : Operator}

theorem checked_eq_error {details : Unit → String} (h : checked details x = .error fault) :
    fault = .notFinite (details ()) := by
  unfold checked at h
  split at h
  · cases h
  · split at h
    · cases h
    · exact (Except.error.inj h).symm

theorem Operator.apply_eq_error (h : op.apply left right = .error fault) :
    (op = .div ∧ fault = .divisionByZero) ∨ (op = .mod ∧ fault = .moduloByZero) ∨
      ∃ details, fault = .notFinite details := by
  rcases bind_eq_error.mp h with failed | ⟨result, -, failed⟩
  · unfold Operator.result at failed
    split at failed
    · cases failed
    · cases failed
    · cases failed
    · cases failed
    · split at failed <;> cases failed
      exact .inl ⟨rfl, rfl⟩
    · split at failed <;> cases failed
      exact .inr (.inl ⟨rfl, rfl⟩)
    · cases failed
  · exact .inr (.inr ⟨_, checked_eq_error failed⟩)

theorem call_nil_of_isSome (builtin : (Function.ofName? name).isSome) :
    call name [] = .error (.argumentCount name 1 0) := by
  obtain ⟨f, named⟩ := Option.isSome_iff_exists.mp builtin
  rw [call, named, ← Function.name_of_ofName? named]
  rfl

theorem call_singleton_eq_error (builtin : (Function.ofName? name).isSome)
    (h : call name [x] = .error fault) :
    (name = "log" ∧ ∃ details, fault = .invalidArgument details) ∨
      ∃ details, fault = .notFinite details := by
  obtain ⟨f, named⟩ := Option.isSome_iff_exists.mp builtin
  rw [call_singleton named] at h
  rcases bind_eq_error.mp h with failed | ⟨result, -, failed⟩
  · cases f with
    | log =>
      rw [Function.result] at failed
      split at failed <;> cases failed
      exact .inl ⟨(Function.name_of_ofName? named).symm, _, rfl⟩
    | _ => cases failed
  · exact .inr ⟨_, checked_eq_error failed⟩

end Operations

/-! ### What a state keeps -/

namespace Assembly

section Standing

variable {α : Type} (tokens : List Lexeme)

/-- An operator stands at a position: the token of it is there, or the product is implied there. -/
def Operates (op : Operator) (position : Nat) : Prop :=
  (∃ sign : Token, sign.operator? = some op ∧ ⟨sign, position⟩ ∈ tokens) ∨
    (op = .impliedMul ∧ ImpliesAt tokens position)

def Pending.Stands : Pending α → Prop
  | .negation position => ⟨.minus, position⟩ ∈ tokens
  | .operation op _ position => Operates tokens op position

def Bracket.Stands : Bracket → Prop
  | .group => True
  | .call name position => (Function.ofName? name).isSome ∧ CallsAt tokens name position

structure Enclosure.Stands (e : Enclosure α) : Prop where
  bracket : e.bracket.Stands tokens
  outside : ∀ p ∈ e.outside, p.Stands tokens

/-- The tokens of the focus are the last ones that have been taken. -/
def Focus.Stands (used : List Lexeme) : Focus α → Prop
  | .operand => True
  | .argument called position opened =>
    (Function.ofName? called).isSome ∧
      [⟨.identifier called, position⟩, ⟨.openParen, opened⟩] <:+ used
  | .name read position => used.getLast? = some ⟨.identifier read, position⟩
  | .value _ => ∃ last, used.getLast? = some last

/-- What a state keeps stands among the tokens of the statement, of which it has taken `used`. -/
structure State.Stands (used : List Lexeme) (s : State α) : Prop where
  focus : s.focus.Stands used
  pending : ∀ p ∈ s.pending, p.Stands tokens
  enclosures : ∀ e ∈ s.enclosures, e.Stands tokens

end Standing

/-- A name is understood before the next token: it is that of a function if it is called, and bound
if it is read. -/
def Understood (bindings : Bindings) (lexeme next : Lexeme) : Prop :=
  ∀ name, lexeme.token = .identifier name →
    (next.token = .openParen → (Function.ofName? name).isSome) ∧
    (next.token ≠ .openParen → next.token ≠ .assign → (bindings.get? name).isSome)

/-- A state that is reached by taking the tokens `used` of a statement. -/
structure Explained (bindings : Bindings) (tokens used : List Lexeme) (s : State Tree) : Prop
    extends s.Stands tokens used where
  understood : used.IsChain (Understood bindings)
  follows : ∀ last ∈ used.getLast?, s.focus.Follows last.token

section Steps

variable {α : Type} {b : Builder α} {enclosures : List (Enclosure α)} {pending : List (Pending α)}
  {s s' : State α} {value : α} {tokens used rest : List Lexeme} {lexeme : Lexeme}

theorem unwind_isSuffix {level : Level} {r : List (Pending α) × α}
    (h : unwind b level pending value = .ok r) : r.1 <:+ pending := by
  induction pending generalizing value with
  | nil =>
    cases h
    exact List.suffix_refl _
  | cons p pending ih =>
    unfold unwind at h
    split at h
    · obtain ⟨value, -, unwound⟩ := bind_eq_ok.mp h
      exact (ih unwound).trans (List.suffix_cons p pending)
    · cases h
      exact List.suffix_refl _

theorem stands_unwind {level : Level} {r : List (Pending α) × α}
    (waiting : ∀ p ∈ pending, p.Stands tokens) (h : unwind b level pending value = .ok r) :
    ∀ p ∈ r.1, p.Stands tokens := by
  intro p mem
  exact waiting p ((unwind_isSuffix h).mem mem)

theorem impliesAt_of_getLast? {last : Lexeme} (split : tokens = used ++ lexeme :: rest)
    (h : used.getLast? = some last) (implies : last.token.impliesProduct lexeme.token) :
    ImpliesAt tokens lexeme.position := by
  obtain ⟨front, rfl⟩ := List.getLast?_eq_some_iff.mp h
  refine ⟨last, lexeme, ⟨front, rest, ?_⟩, implies, rfl⟩
  rw [split, List.append_assoc, List.append_assoc]
  rfl

theorem stands_beginOperand (mem : lexeme ∈ tokens) (waiting : ∀ p ∈ pending, p.Stands tokens)
    (around : ∀ e ∈ enclosures, e.Stands tokens)
    (h : beginOperand b .sum enclosures pending lexeme = .ok s) :
    s.Stands tokens (used ++ [lexeme]) := by
  obtain ⟨token, position⟩ := lexeme
  cases token with
  | number =>
    cases h
    exact ⟨⟨_, List.getLast?_concat⟩, waiting, around⟩
  | identifier =>
    cases h
    exact ⟨List.getLast?_concat, waiting, around⟩
  | openParen =>
    cases h
    exact ⟨trivial, nofun, List.forall_mem_cons.mpr ⟨⟨trivial, waiting⟩, around⟩⟩
  | minus =>
    rw [beginOperand_minus] at h
    cases h
    exact ⟨trivial, List.forall_mem_cons.mpr ⟨mem, waiting⟩, around⟩
  | _ => cases h

theorem stands_afterValue (mem : lexeme ∈ tokens)
    (implies : lexeme.token.startsOperand → ImpliesAt tokens lexeme.position)
    (waiting : ∀ p ∈ pending, p.Stands tokens) (around : ∀ e ∈ enclosures, e.Stands tokens)
    (h : afterValue b .sum enclosures pending value lexeme = .ok (.taken s)) :
    s.Stands tokens (used ++ [lexeme]) := by
  cases sign : lexeme.token.operator? with
  | some op =>
    rw [afterValue_operator sign] at h
    obtain ⟨r, unwound, ⟨⟩⟩ := map_eq_ok.mp h
    have operates : Operates tokens op lexeme.position := .inl ⟨lexeme.token, sign, mem⟩
    exact ⟨trivial, List.forall_mem_cons.mpr ⟨operates, stands_unwind waiting unwound⟩, around⟩
  | none =>
    by_cases begins : lexeme.token.startsOperand
    · rw [afterValue_operand begins] at h
      obtain ⟨r, unwound, begun⟩ := bind_eq_ok.mp h
      obtain ⟨s, begun, ⟨⟩⟩ := map_eq_ok.mp begun
      have implied : (Pending.operation .impliedMul r.2 lexeme.position).Stands tokens :=
        .inr ⟨rfl, implies begins⟩
      have joined := List.forall_mem_cons.mpr ⟨implied, stands_unwind waiting unwound⟩
      exact stands_beginOperand mem joined around begun
    · simp only [afterValue, sign, if_neg begins] at h
      obtain ⟨settled, -, h⟩ := bind_eq_ok.mp h
      obtain ⟨token, position⟩ := lexeme
      cases enclosures with
      | nil => cases h
      | cons e enclosures =>
        cases token with
        | closeParen =>
          obtain ⟨closed, -, ⟨⟩⟩ := bind_eq_ok.mp h
          obtain ⟨stands, around⟩ := List.forall_mem_cons.mp around
          exact ⟨⟨_, List.getLast?_concat⟩, stands.outside, around⟩
        | _ => cases h

end Steps

section Names

variable {bindings : Bindings} {name : String} {position : Nat} {lexeme : Lexeme}
  {enclosures : List (Enclosure Tree)} {pending : List (Pending Tree)} {progress : Progress Tree}

theorem isSome_of_reference {tree : Tree}
    (h : Fault.locate position ((Tree.builder bindings).reference name position) = .ok tree) :
    (bindings.get? name).isSome := by
  obtain ⟨value, found, -⟩ := bind_eq_ok.mp (Fault.locate_eq_ok.mp h)
  exact Option.isSome_iff_exists.mpr ⟨value, Bindings.read_eq_ok.mp found⟩

/-- After a name, the next token is taken only if the name is understood. -/
theorem understood_of_step
    (h : step (Tree.builder bindings) .sum ⟨enclosures, pending, .name name position⟩ lexeme =
      .ok progress) :
    Understood bindings ⟨.identifier name, position⟩ lexeme := by
  rintro _ ⟨⟩
  obtain ⟨token, p⟩ := lexeme
  cases token with
  | openParen =>
    obtain ⟨⟨⟩, callable, -⟩ := bind_eq_ok.mp h
    exact ⟨fun _ => isSome_of_callable callable, fun other => absurd rfl other⟩
  | assign => cases h
  | _ =>
    obtain ⟨tree, reference, -⟩ := bind_eq_ok.mp h
    exact ⟨nofun, fun _ _ => isSome_of_reference reference⟩

end Names

namespace Explained

variable {bindings : Bindings} {tokens used rest : List Lexeme} {lexeme : Lexeme}
  {s s' : State Tree} {enclosures : List (Enclosure Tree)} {pending : List (Pending Tree)}

theorem start_nil : Explained bindings tokens [] .start where
  focus := trivial
  pending := nofun
  enclosures := nofun
  understood := .nil
  follows := nofun

theorem start_assignment (name : String) (p q : Nat) :
    Explained bindings tokens [⟨.identifier name, p⟩, ⟨.assign, q⟩] .start where
  focus := trivial
  pending := nofun
  enclosures := nofun
  understood := List.isChain_pair.mpr fun _ _ => ⟨nofun, fun _ assigns => absurd rfl assigns⟩
  follows := by
    rintro _ ⟨⟩
    exact Bool.false_ne_true

theorem understood_concat (explained : Explained bindings tokens used s)
    (h : Assembly.step (Tree.builder bindings) .sum s lexeme = .ok (.taken s')) :
    (used ++ [lexeme]).IsChain (Understood bindings) := by
  refine List.isChain_append.mpr ⟨explained.understood, .singleton _, ?_⟩
  rintro last mem _ ⟨⟩
  have follows := explained.follows last mem
  have stands := explained.focus
  obtain ⟨enclosures, pending, focus⟩ := s
  cases focus with
  | name read position =>
    obtain rfl : last = ⟨.identifier read, position⟩ := Option.some.inj (mem.symm.trans stands)
    exact understood_of_step h
  | operand | argument =>
    intro name named
    rw [named] at follows
    exact absurd rfl follows
  | value =>
    intro name named
    exact absurd named (follows.2 name)

theorem stands_concat (explained : Explained bindings tokens used s)
    (split : tokens = used ++ lexeme :: rest)
    (h : Assembly.step (Tree.builder bindings) .sum s lexeme = .ok (.taken s')) :
    s'.Stands tokens (used ++ [lexeme]) := by
  have mem : lexeme ∈ tokens := by
    rw [split]
    exact List.mem_append_right _ List.mem_cons_self
  have waiting := explained.pending
  have around := explained.enclosures
  have focused := explained.focus
  obtain ⟨enclosures, pending, focus⟩ := s
  cases focus with
  | operand =>
    obtain ⟨s, begun, ⟨⟩⟩ := map_eq_ok.mp h
    exact stands_beginOperand mem waiting around begun
  | argument called position opened =>
    obtain ⟨token, p⟩ := lexeme
    cases token with
    | closeParen =>
      obtain ⟨value, -, ⟨⟩⟩ := bind_eq_ok.mp h
      exact ⟨⟨_, List.getLast?_concat⟩, waiting, around⟩
    | _ =>
      obtain ⟨s, begun, ⟨⟩⟩ := map_eq_ok.mp h
      obtain ⟨builtin, ends⟩ := focused
      have calls : CallsAt tokens called position :=
        ⟨opened, ends.isInfix.trans (List.IsPrefix.isInfix ⟨_, split.symm⟩)⟩
      have call : Enclosure.Stands tokens ⟨.call called position, opened, pending⟩ :=
        ⟨⟨builtin, calls⟩, waiting⟩
      exact stands_beginOperand mem (List.forall_mem_nil _)
        (List.forall_mem_cons.mpr ⟨call, around⟩) begun
  | name read position =>
    obtain ⟨token, p⟩ := lexeme
    cases token with
    | openParen =>
      obtain ⟨⟨⟩, callable, ⟨⟩⟩ := bind_eq_ok.mp h
      obtain ⟨front, rfl⟩ := List.getLast?_eq_some_iff.mp focused
      exact ⟨⟨isSome_of_callable callable, front, List.append_cons _ _ _⟩, waiting, around⟩
    | assign => cases h
    | _ =>
      obtain ⟨value, -, h⟩ := bind_eq_ok.mp h
      exact stands_afterValue mem (impliesAt_of_getLast? split focused) waiting around h
  | value value =>
    obtain ⟨last, last_eq⟩ := focused
    have implies (begins : lexeme.token.startsOperand) : ImpliesAt tokens lexeme.position :=
      impliesAt_of_getLast? split last_eq ((explained.follows last last_eq).impliesProduct begins)
    exact stands_afterValue mem implies waiting around h

/-- A token that is taken keeps what the state says about the tokens. -/
theorem step (explained : Explained bindings tokens used s)
    (split : tokens = used ++ lexeme :: rest)
    (h : Assembly.step (Tree.builder bindings) .sum s lexeme = .ok (.taken s')) :
    Explained bindings tokens (used ++ [lexeme]) s' where
  toStands := explained.stands_concat split h
  understood := explained.understood_concat h
  follows := by
    intro last mem
    rw [List.getLast?_concat] at mem
    cases mem
    exact step_follows h

end Explained

/-! ### Faults of a step -/

section Faults

variable {bindings : Bindings} {tokens used rest : List Lexeme} {lexeme : Lexeme} {fault : Fault}
  {position : Nat} {enclosures : List (Enclosure Tree)} {pending : List (Pending Tree)}
  {value : Tree}

theorem Operates.mem {op : Operator} (operates : Operates tokens op position)
    (explicit : op ≠ .impliedMul) : ⟨.ofOperator op, position⟩ ∈ tokens := by
  rcases operates with ⟨sign, operator, mem⟩ | ⟨implied, -⟩
  · cases sign <;> cases operator <;> exact mem
  · exact absurd implied explicit

theorem Operates.blames {op : Operator} (operates : Operates tokens op position)
    (details : String) : (Fault.notFinite details).Blames tokens bindings position := by
  rcases operates with ⟨sign, operator, mem⟩ | ⟨-, implies⟩
  · refine .inl ⟨sign, ?_, mem⟩
    cases sign <;> cases operator <;> simp
  · exact .inr (.inr implies)

theorem blames_complete {p : Pending Tree} (stands : p.Stands tokens)
    (h : p.complete (Tree.builder bindings) value = .error ⟨.fault fault, position⟩) :
    fault.Blames tokens bindings position := by
  cases p with
  | negation q =>
    obtain ⟨fault, failed, ⟨⟩⟩ := mapError_eq_error.mp h
    rcases bind_eq_error.mp failed with failed | ⟨value, -, failed⟩
    · rw [checked_eq_error failed]
      have operates : Operates tokens .sub position := .inl ⟨.minus, rfl, stands⟩
      exact operates.blames _
    · cases failed
  | operation op left q =>
    obtain ⟨fault, failed, ⟨⟩⟩ := mapError_eq_error.mp h
    rcases bind_eq_error.mp failed with failed | ⟨value, -, failed⟩
    · rcases Operator.apply_eq_error failed with ⟨rfl, rfl⟩ | ⟨rfl, rfl⟩ | ⟨details, rfl⟩
      · exact Operates.mem stands nofun
      · exact Operates.mem stands nofun
      · exact Operates.blames stands details
    · cases failed

theorem blames_close {bracket : Bracket} (stands : bracket.Stands tokens)
    (h : bracket.close (Tree.builder bindings) value = .error ⟨.fault fault, position⟩) :
    fault.Blames tokens bindings position := by
  cases bracket with
  | group => cases h
  | call name q =>
    obtain ⟨builtin, calls⟩ := stands
    obtain ⟨fault, failed, ⟨⟩⟩ := mapError_eq_error.mp h
    rcases bind_eq_error.mp failed with failed | ⟨value, -, failed⟩
    · rcases call_singleton_eq_error builtin failed with ⟨rfl, details, rfl⟩ | ⟨details, rfl⟩
      · exact calls
      · exact .inr (.inl ⟨name, builtin, calls⟩)
    · cases failed

/-- Where an operand has to begin, no operation is carried out. -/
theorem beginOperand_ne_fault {α : Type} {b : Builder α} {enclosures : List (Enclosure α)}
    {pending : List (Pending α)} :
    beginOperand b .sum enclosures pending lexeme ≠ .error ⟨.fault fault, position⟩ := by
  intro h
  obtain ⟨token, p⟩ := lexeme
  cases token with
  | minus =>
    rw [beginOperand_minus] at h
    cases h
  | _ => cases h

theorem blames_afterValue (waiting : ∀ p ∈ pending, p.Stands tokens)
    (around : ∀ e ∈ enclosures, e.Stands tokens)
    (h : afterValue (Tree.builder bindings) .sum enclosures pending value lexeme =
      .error ⟨.fault fault, position⟩) :
    fault.Blames tokens bindings position := by
  have completes
      (failed : ∃ p ∈ pending, ∃ operand, p.complete (Tree.builder bindings) operand =
        .error ⟨.fault fault, position⟩) :
      fault.Blames tokens bindings position := by
    obtain ⟨p, mem, operand, failed⟩ := failed
    exact blames_complete (waiting p mem) failed
  cases sign : lexeme.token.operator? with
  | some op =>
    rw [afterValue_operator sign] at h
    exact completes (unwind_eq_error (map_eq_error.mp h))
  | none =>
    by_cases begins : lexeme.token.startsOperand
    · rw [afterValue_operand begins] at h
      rcases bind_eq_error.mp h with failed | ⟨r, -, failed⟩
      · exact completes (unwind_eq_error failed)
      · exact absurd (map_eq_error.mp failed) beginOperand_ne_fault
    · simp only [afterValue, sign, if_neg begins] at h
      rcases bind_eq_error.mp h with failed | ⟨settled, -, failed⟩
      · exact completes (settle_eq_error failed)
      · obtain ⟨token, p⟩ := lexeme
        cases enclosures with
        | nil => cases failed
        | cons e enclosures =>
          cases token with
          | closeParen =>
            rcases bind_eq_error.mp failed with failed | ⟨closed, -, failed⟩
            · exact blames_close (List.forall_mem_cons.mp around).1.bracket failed
            · cases failed
          | _ => cases failed

end Faults

/-- In ascending tokens, two adjacent ones of which the first is before another token are adjacent
among the tokens up to that one. -/
theorem infix_of_position_lt {front rest : List Lexeme} {lexeme a b : Lexeme}
    (ascending : (front ++ lexeme :: rest).Pairwise fun a b => a.position < b.position)
    (adjacent : [a, b] <:+: front ++ lexeme :: rest) (lt : a.position < lexeme.position) :
    [a, b] <:+: front ++ [lexeme] := by
  induction front with
  | nil =>
    have later : a = lexeme ∨ a ∈ rest := List.mem_cons.mp (adjacent.subset List.mem_cons_self)
    rcases later with rfl | mem
    · exact absurd lt (Nat.lt_irrefl _)
    · exact absurd lt (Nat.lt_asymm ((List.pairwise_cons.mp ascending).1 a mem))
  | cons first front ih =>
    rcases List.infix_cons_iff.mp adjacent with begins | adjacent
    · obtain ⟨rfl, goesOn⟩ := List.cons_prefix_cons.mp begins
      refine List.IsPrefix.isInfix (List.cons_prefix_cons.mpr ⟨rfl, ?_⟩)
      cases front with
      | nil =>
        obtain ⟨rfl, -⟩ := List.cons_prefix_cons.mp goesOn
        exact List.prefix_refl _
      | cons second front =>
        obtain ⟨rfl, -⟩ := List.cons_prefix_cons.mp goesOn
        exact ⟨_, rfl⟩
    · exact (ih (List.pairwise_cons.mp ascending).2 adjacent).trans (List.suffix_cons _ _).isInfix

namespace Explained

variable {bindings : Bindings} {tokens used rest : List Lexeme} {lexeme : Lexeme} {s : State Tree}
  {fault : Fault} {name : String} {position p : Nat} {enclosures : List (Enclosure Tree)}
  {pending : List (Pending Tree)}

section AfterName

variable (explained : Explained bindings tokens used ⟨enclosures, pending, .name name p⟩)
  (split : tokens = used ++ lexeme :: rest)

include explained split

theorem name_adjacent : [⟨.identifier name, p⟩, lexeme] <:+: tokens := by
  obtain ⟨front, rfl⟩ := List.getLast?_eq_some_iff.mp explained.focus
  refine ⟨front, rest, ?_⟩
  rw [split]
  simp only [List.append_assoc, List.cons_append, List.nil_append]

variable (ascending : tokens.Pairwise fun a b => a.position < b.position)

include ascending

/-- The names before the last one are understood. -/
theorem understood_earlier {other : String} {q : Nat} {next : Lexeme}
    (adjacent : [⟨.identifier other, q⟩, next] <:+: tokens) (lt : q < p) :
    Understood bindings ⟨.identifier other, q⟩ next := by
  have chain := explained.understood
  obtain ⟨front, rfl⟩ := List.getLast?_eq_some_iff.mp explained.focus
  rw [split, List.append_assoc] at ascending adjacent
  have upTo := infix_of_position_lt ascending adjacent lt
  exact List.isChain_pair.mp <| List.IsChain.infix chain upTo

theorem blames_reference (notCall : lexeme.token ≠ .openParen) (notTarget : lexeme.token ≠ .assign)
    (h : Fault.locate p ((Tree.builder bindings).reference name p) =
      .error ⟨.fault fault, position⟩) :
    fault.Blames tokens bindings position := by
  obtain ⟨fault, failed, ⟨⟩⟩ := mapError_eq_error.mp h
  rcases bind_eq_error.mp failed with failed | ⟨value, -, failed⟩
  · obtain ⟨unbound, rfl⟩ := Bindings.read_eq_error.mp failed
    refine ⟨unbound, ⟨lexeme, explained.name_adjacent split, notCall, notTarget⟩, ?_⟩
    rintro other q ⟨next, adjacent, notCall, notTarget⟩ lt
    exact (explained.understood_earlier split ascending adjacent lt other rfl).2 notCall notTarget
  · cases failed

theorem blames_callable (call : lexeme.token = .openParen)
    (h : Fault.locate p ((Tree.builder bindings).callable name) = .error ⟨.fault fault, position⟩) :
    fault.Blames tokens bindings position := by
  obtain ⟨token, opened⟩ := lexeme
  obtain rfl : token = .openParen := call
  obtain ⟨fault, failed, ⟨⟩⟩ := mapError_eq_error.mp h
  simp only [Tree.builder] at failed
  split at failed
  · cases failed
  · rename_i unknown
    cases failed
    refine ⟨Option.not_isSome_iff_eq_none.mp unknown, ⟨opened, explained.name_adjacent split⟩, ?_⟩
    rintro other q ⟨opened, adjacent⟩ lt
    exact (explained.understood_earlier split ascending adjacent lt other rfl).1 rfl

end AfterName

theorem blames_emptyCall {opened closed : Nat}
    (explained : Explained bindings tokens used ⟨enclosures, pending, .argument name p opened⟩)
    (split : tokens = used ++ ⟨.closeParen, closed⟩ :: rest)
    (h : Fault.locate p ((Tree.builder bindings).call name none p) =
      .error ⟨.fault fault, position⟩) :
    fault.Blames tokens bindings position := by
  obtain ⟨builtin, front, ends⟩ := explained.focus
  obtain ⟨fault, failed, ⟨⟩⟩ := mapError_eq_error.mp h
  rcases bind_eq_error.mp failed with failed | ⟨value, -, failed⟩
  · cases (call_nil_of_isSome builtin).symm.trans failed
    refine ⟨builtin, rfl, rfl, opened, closed, front, rest, ?_⟩
    rw [split, ← ends]
    simp only [List.append_assoc, List.cons_append, List.nil_append]
  · cases failed

/-- Where a step fails with a fault, the tokens explain its position. -/
theorem blames (explained : Explained bindings tokens used s)
    (split : tokens = used ++ lexeme :: rest)
    (ascending : tokens.Pairwise fun a b => a.position < b.position)
    (h : Assembly.step (Tree.builder bindings) .sum s lexeme = .error ⟨.fault fault, position⟩) :
    fault.Blames tokens bindings position := by
  obtain ⟨enclosures, pending, focus⟩ := s
  cases focus with
  | operand => exact absurd (map_eq_error.mp h) beginOperand_ne_fault
  | argument called p opened =>
    obtain ⟨token, closed⟩ := lexeme
    cases token with
    | closeParen =>
      rcases bind_eq_error.mp h with failed | ⟨value, -, failed⟩
      · exact explained.blames_emptyCall split failed
      · cases failed
    | _ => exact absurd (map_eq_error.mp h) beginOperand_ne_fault
  | name read p =>
    obtain ⟨token, q⟩ := lexeme
    cases token with
    | openParen =>
      rcases bind_eq_error.mp h with failed | ⟨⟨⟩, -, failed⟩
      · exact explained.blames_callable split ascending rfl failed
      · cases failed
    | assign => cases h
    | _ =>
      rcases bind_eq_error.mp h with failed | ⟨value, -, failed⟩
      · exact explained.blames_reference split ascending nofun nofun failed
      · exact blames_afterValue explained.pending explained.enclosures failed
  | value value => exact blames_afterValue explained.pending explained.enclosures h

end Explained

/-- The fault of an expression that stands behind the tokens `target` is that of a step. -/
theorem blames_of_assembleAll {bindings : Bindings} {tokens target body : List Lexeme}
    {fault : Fault} {position endsAt : Nat}
    (start : Explained bindings tokens target .start) (split : tokens = target ++ body)
    (closed : Closed endsAt body)
    (ascending : tokens.Pairwise fun a b => a.position < b.position)
    (h : assembleAll (Tree.builder bindings) body = .error ⟨.fault fault, position⟩) :
    fault.Blames tokens bindings position := by
  obtain ⟨before, lexeme, after, s, split, explained, halt⟩ :=
    halts (fun split explained => explained.step split) start closed split
  rw [assembleAll, assemble] at h
  rcases halt with ⟨e, refused, failed⟩ | ⟨value, -, ended⟩
  · rw [failed] at h
    cases h
    exact explained.blames split ascending refused
  · rw [ended, ok_bind] at h
    obtain ⟨token, p⟩ := lexeme
    cases token <;> cases h

end Assembly

/-! ### Statements -/

section Statements

variable {text : String} {bindings : Bindings} {tokens : List Lexeme} {fault : Fault}
  {position endsAt : Nat}

theorem blames_of_evaluateTokens (closed : Closed endsAt tokens)
    (ascending : tokens.Pairwise fun a b => a.position < b.position)
    (h : evaluateTokens tokens bindings = .error ⟨.fault fault, position⟩) :
    fault.Blames tokens bindings position := by
  unfold evaluateTokens assembleStatement at h
  split at h
  · rename_i name p q body
    rcases bind_eq_error.mp h with failed | ⟨value, -, failed⟩
    · exact Assembly.blames_of_assembleAll (.start_assignment name p q) rfl
        ((closed.tail nofun).tail nofun) ascending failed
    · cases failed
  · exact Assembly.blames_of_assembleAll .start_nil rfl closed ascending h

/-- The position of a fault is that of one token, which is the cause of it. -/
theorem evaluate_fault_blames (scanned : scan text = .ok tokens)
    (fails : evaluate text bindings = .error (.parse ⟨.fault fault, position⟩)) :
    fault.Blames tokens bindings position ∧
      ∀ a ∈ tokens, ∀ b ∈ tokens, a.position = b.position → a = b := by
  have ascending := (sliced_of_scan scanned).ascending
  rw [evaluate_of_scan scanned] at fails
  obtain ⟨e, failed, ⟨⟩⟩ := mapError_eq_error.mp fails
  refine ⟨blames_of_evaluateTokens (closed_of_scan scanned) ascending failed, ?_⟩
  have distinct : (tokens.map Lexeme.position).Nodup :=
    List.pairwise_map.mpr (ascending.imp fun lt => Nat.ne_of_lt lt)
  intro a memA b memB same
  exact List.inj_on_of_nodup_map distinct memA memB same

/-- The first variable that is read and not bound is blamed. The target is not bound either, but it
is not read. -/
theorem evaluate_fault_blames_unbound :
    ∃ tokens, scan "a=(e-pi)b-c" = .ok tokens ∧
      evaluate "a=(e-pi)b-c" .initial = .error (.parse ⟨.fault (.unknownVariable "b"), 8⟩) ∧
      (Fault.unknownVariable "b").Blames tokens .initial 8 := by
  have scanned : scan "a=(e-pi)b-c" =
      .ok [⟨.identifier "a", 0⟩, ⟨.assign, 1⟩, ⟨.openParen, 2⟩, ⟨.identifier "e", 3⟩, ⟨.minus, 4⟩,
        ⟨.identifier "pi", 5⟩, ⟨.closeParen, 7⟩, ⟨.identifier "b", 8⟩, ⟨.minus, 9⟩,
        ⟨.identifier "c", 10⟩, ⟨.endOfInput, 11⟩] := by
    simp [scan, Token.scanFrom, Token.isBlank, Token.startsNumeral, Token.ofSymbol?]
  have fails : evaluate "a=(e-pi)b-c" .initial =
      .error (.parse ⟨.fault (.unknownVariable "b"), 8⟩) := by
    rw [evaluate_of_scan scanned]
    rfl
  exact ⟨_, scanned, fails, (evaluate_fault_blames scanned fails).1⟩

end Statements

end Calculator
