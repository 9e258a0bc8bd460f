import ArrayLogic.Formula.Reader
import ArrayLogic.Source

/-! # Definitions

Definitions bind names to formulas over the inputs of a device. An equation is read in the scope of
the definitions before it, so that a later redefinition of a name does not change the formulas that
used its earlier meaning. The outputs of a device are the bound names `O0`, `O1`, and so on without
a gap.
-/

namespace ArrayLogic

open Text (quoted)

/-- The formulas bound to names, over a number of inputs. No name is bound twice. -/
structure Definitions where
  inputs : Nat
  bindings : List (String × Formula)
  distinct : bindings.Pairwise fun a b => a.1 ≠ b.1
deriving DecidableEq

/-- Why an equation cannot be a definition. -/
inductive DefineError where
  | invalidName (name : String)
  | inputRedefined (name : String)
  | formula (cause : Formula.Error)
deriving DecidableEq, Repr

def DefineError.message : DefineError → String
  | .invalidName name => s!"{quoted name} is not a valid equation name, expected O<k> or T<k>"
  | .inputRedefined name => s!"input {name} cannot be assigned"
  | .formula cause => cause.message

/-- An equation that could not be defined. -/
structure EquationError where
  name : String
  line : Nat
  cause : DefineError
deriving DecidableEq, Repr

def EquationError.message (e : EquationError) : String :=
  s!"in equation {e.name} (line {e.line}): {e.cause.message}"

/-- Why the bound output names do not fit a device. -/
inductive OutputError where
  | noOutputs
  | outOfRange (index outputs : Nat)
  | gap (index : Nat)
deriving DecidableEq, Repr

def OutputError.message : OutputError → String
  | .noOutputs => "no output equations (O0, O1, ...) defined"
  | .outOfRange index outputs =>
      s!"output {Name.output index} does not exist, the device has {outputs} outputs"
  | .gap index =>
      s!"output {Name.output index} is not defined, outputs must be numbered contiguously from O0"

/-- A bound output. -/
structure Output where
  index : Nat
  formula : Formula
deriving DecidableEq, Repr

def Output.name (o : Output) : String :=
  Name.output o.index

namespace Definitions

/-- Nothing is bound. -/
def empty (inputs : Nat) : Definitions :=
  ⟨inputs, [], .nil⟩

/-- The formula bound to a name. -/
def get? (d : Definitions) (name : String) : Option Formula :=
  d.bindings.lookup name

/-- The number of bound names. -/
def size (d : Definitions) : Nat :=
  d.bindings.length

def isEmpty (d : Definitions) : Bool :=
  d.bindings.isEmpty

/-- Binds a name, whatever it is, in place of an earlier binding. -/
def insert (d : Definitions) (name : String) (f : Formula) : Definitions where
  inputs := d.inputs
  bindings := (name, f) :: d.bindings.filter (·.1 != name)
  distinct := by
    refine List.pairwise_cons.mpr ⟨?_, d.distinct.filter _⟩
    intro binding hbinding
    have hne : binding.1 ≠ name := by simpa using (List.mem_filter.mp hbinding).2
    exact hne.symm

theorem get?_insert (d : Definitions) (name other : String) (f : Formula) :
    (d.insert name f).get? other = if other = name then some f else d.get? other := by
  by_cases heq : other = name
  · simp [get?, insert, heq]
  · have hlookup : ∀ bindings : List (String × Formula),
        (bindings.filter (·.1 != name)).lookup other = bindings.lookup other := by
      intro bindings
      induction bindings with
      | nil => rfl
      | cons binding rest ih =>
        by_cases hname : binding.1 = name
        · have hne : (other == binding.1) = false := by
            rw [hname]
            simpa using heq
          rw [List.filter_cons_of_neg (by simp [hname]), ih, List.lookup_cons, hne]
        · rw [List.filter_cons_of_pos (by simpa using hname), List.lookup_cons, List.lookup_cons, ih]
    have hne : (other == name) = false := by simpa using heq
    rw [if_neg heq, get?, insert, List.lookup_cons, hne]
    exact hlookup d.bindings

/-- What the next equation can refer to. -/
def scope (d : Definitions) : Formula.Scope :=
  ⟨d.inputs, d.get?⟩

/-- The formula that an equation would bind to its name. -/
def formulaOf (d : Definitions) (e : Equation) : Except DefineError Formula :=
  if Name.isInput e.name.toList then .error (.inputRedefined e.name)
  else if !Name.isDefinable e.name.toList then .error (.invalidName e.name)
  else (Formula.read d.scope e.expression).mapError .formula

/-- Defines the name of an equation. -/
def define (d : Definitions) (e : Equation) : Except EquationError Definitions :=
  match d.formulaOf e with
  | .ok f => .ok (d.insert e.name f)
  | .error cause => .error ⟨e.name, e.line, cause⟩

/-- Defines equations in order up to the first one that fails, which is reported. -/
def defineAll (d : Definitions) : List Equation → Definitions × Option EquationError
  | [] => (d, none)
  | e :: rest =>
      match d.define e with
      | .ok next => next.defineAll rest
      | .error error => (d, some error)

/-- The numbers of the bound output names. -/
def outputIndices (d : Definitions) : List Nat :=
  d.bindings.filterMap fun binding => Name.outputIndex? binding.1.toList

/-- The output of a number, or the gap that it leaves. -/
def output (d : Definitions) (index : Nat) : Except OutputError Output :=
  match d.get? (Name.output index) with
  | some f => .ok ⟨index, f⟩
  | none => .error (.gap index)

/-- The outputs of a device with the given number of outputs, in order. If several conditions fail,
the least number outside the device is reported, and a gap only when there is none. -/
def outputs (d : Definitions) (count : Nat) : Except OutputError (List Output) :=
  if d.outputIndices.isEmpty then .error .noOutputs
  else match (d.outputIndices.filter (count ≤ ·)).min? with
    | some index => .error (.outOfRange index count)
    | none => (List.range d.outputIndices.length).mapM d.output

end Definitions

end ArrayLogic
