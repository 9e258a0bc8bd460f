import ArrayLogic.Formula.Symbol
import ArrayLogic.Name

/-! # Reading formulas

Negation binds tightest, then `&`, then `^`, then `|`; chains of one operator associate to the left.
The reader goes through the symbols once and keeps, for each open bracket, the operands that still
wait for their right-hand side. Constants and inputs stand for themselves, and the name of an output
or temporary stands for the formula it is bound to in the scope.
-/

namespace ArrayLogic.Formula

open Text (Located index?)

/-- What words can refer to: the inputs of the device and the formulas bound to names. -/
structure Scope where
  inputs : Nat
  lookup : String → Option Formula

/-- The formula that a word stands for. -/
def Scope.resolve (scope : Scope) (offset : Nat) (word : String) : Except Error Formula :=
  let unexpected := .error (.unexpected ⟨offset, some word, .operand⟩)
  match word.toList with
  | ['0'] => .ok (.const false)
  | ['1'] => .ok (.const true)
  | 'I' :: digits =>
      match index? digits with
      | some index =>
          if index < scope.inputs then .ok (.lit ((Signal.ofIndex index).literal .direct))
          else .error (.unknownInput index scope.inputs)
      | none => unexpected
  | name =>
      if Name.isDefinable name then
        match scope.lookup word with
        | some f => .ok f
        | none => .error (.undefinedName word)
      else unexpected

/-- The operations of one bracket level that wait for their right operand: at most one of each
binary operator, loosest first, and a number of negations. -/
structure Pending where
  disjunction : Option Formula
  parity : Option Formula
  conjunction : Option Formula
  negations : Nat
deriving DecidableEq, Repr

namespace Pending

def none : Pending :=
  ⟨.none, .none, .none, 0⟩

/-- The formula under a number of negations. -/
def negated : Nat → Formula → Formula
  | 0, f => f
  | n + 1, f => negated n f.not

/-- Completes a waiting operation with its right operand. -/
def complete (operation : Formula → Formula → Formula) : Option Formula → Formula → Formula
  | .none, f => f
  | some left, f => operation left f

/-- The factor of a conjunction chain that ends with the operand. -/
def conjoined (p : Pending) (operand : Formula) : Formula :=
  complete .and p.conjunction (negated p.negations operand)

/-- The member of a parity chain that ends with the operand. -/
def paired (p : Pending) (operand : Formula) : Formula :=
  complete .xor p.parity (p.conjoined operand)

/-- The formula of the whole level, if it ends with the operand. -/
def disjoined (p : Pending) (operand : Formula) : Formula :=
  complete .or p.disjunction (p.paired operand)

/-- One more negation in front of the next operand. -/
def negate (p : Pending) : Pending :=
  { p with negations := p.negations + 1 }

/-- What waits once an operand is followed by `&`. -/
def awaitFactor (p : Pending) (operand : Formula) : Pending :=
  ⟨p.disjunction, p.parity, some (p.conjoined operand), 0⟩

/-- What waits once an operand is followed by `^`. -/
def awaitMember (p : Pending) (operand : Formula) : Pending :=
  ⟨p.disjunction, some (p.paired operand), .none, 0⟩

/-- What waits once an operand is followed by `|`. -/
def awaitSummand (p : Pending) (operand : Formula) : Pending :=
  ⟨some (p.disjoined operand), .none, .none, 0⟩

end Pending

/-- Where the reader stands: before an operand or behind one. The list holds what waits outside the
brackets that are still open, innermost first. -/
inductive State where
  | before (pending : Pending) (outer : List Pending)
  | behind (operand : Formula) (pending : Pending) (outer : List Pending)
deriving DecidableEq, Repr

namespace State

def start : State :=
  before .none []

/-- What may follow in a state. Only a closing bracket is named where a bracket is open. -/
def expectation : State → Expectation
  | before _ _ => .operand
  | behind _ _ [] => .operator
  | behind _ _ (_ :: _) => .closing

/-- Goes on with a symbol or reports it. -/
def advance (scope : Scope) (state : State) (symbol : Located Symbol) : Except Error State :=
  match state, symbol.item with
  | before pending outer, .not => .ok (before pending.negate outer)
  | before pending outer, .opening => .ok (before .none (pending :: outer))
  | before pending outer, .word word =>
      (scope.resolve symbol.offset word).map (behind · pending outer)
  | behind operand pending outer, .and => .ok (before (pending.awaitFactor operand) outer)
  | behind operand pending outer, .xor => .ok (before (pending.awaitMember operand) outer)
  | behind operand pending outer, .or => .ok (before (pending.awaitSummand operand) outer)
  | behind operand pending (enclosing :: outer), .closing =>
      .ok (behind (pending.disjoined operand) enclosing outer)
  | _, _ => .error (.unexpected ⟨symbol.offset, some symbol.item.text, state.expectation⟩)

/-- The formula that has been read when the text ends at the given offset. -/
def conclude (state : State) (offset : Nat) : Except Error Formula :=
  match state with
  | behind operand pending [] => .ok (pending.disjoined operand)
  | _ => .error (.unexpected ⟨offset, none, state.expectation⟩)

end State

/-- Reads a formula in a scope. -/
def read (scope : Scope) (text : String) : Except Error Formula := do
  let state ← (← symbols text).foldlM (State.advance scope) .start
  state.conclude text.utf8ByteSize

end ArrayLogic.Formula
