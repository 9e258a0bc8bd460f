import ArrayLogic.Definitions
import ArrayLogic.Formula.Expansion
import ArrayLogic.FuseMap.Assembly
import ArrayLogic.NormalForm.Reader

/-! # Compilation

A source is compiled in stages: its equations are read and defined, the outputs of the device are
selected, each output is expanded to the canonical text of its normal form and split into product
terms, and the terms of all outputs are assembled into a fuse map.
-/

namespace ArrayLogic

open Text (quoted)

/-- An output with the canonical text of its normal form. -/
structure ExpandedOutput extends Output where
  normalForm : String
deriving DecidableEq, Repr

/-- An output that is ready for assembly. -/
structure CompiledOutput extends ExpandedOutput where
  terms : List Term
deriving DecidableEq, Repr

/-- A source compiled for a device of the given shape. -/
structure Compilation (g : Geometry) where
  outputs : List CompiledOutput
  fuseMap : FuseMap g
deriving DecidableEq, Repr

/-- Why a source cannot be compiled. -/
inductive CompileError where
  | source (invalid : List Source.InvalidLine)
  | equation (cause : EquationError)
  | outputs (cause : OutputError)
  | extraction (name normalForm : String) (cause : NormalForm.Error)
  | assembly (cause : AssemblyError)
deriving DecidableEq, Repr

def CompileError.message : CompileError → String
  | .source invalid => Source.message invalid
  | .equation cause => cause.message
  | .outputs cause => cause.message
  | .extraction name normalForm cause =>
      s!"cannot extract the terms of {name} from {quoted normalForm}: {cause.message}"
  | .assembly cause => cause.message

/-- Writes the normal form of an output. -/
def Output.expand (o : Output) : ExpandedOutput :=
  ⟨o, o.formula.toCover.text⟩

/-- Splits the normal form of an output into terms. -/
def ExpandedOutput.split (o : ExpandedOutput) : Except CompileError CompiledOutput :=
  match NormalForm.readTerms o.normalForm with
  | .ok terms => .ok ⟨o, terms⟩
  | .error cause => .error (.extraction o.name o.normalForm cause)

namespace Compilation

/-- The definitions of a source for a device. -/
def definitions (g : Geometry) (source : String) : Except CompileError Definitions :=
  match Source.read source with
  | .error invalid => .error (.source invalid)
  | .ok equations =>
      match (Definitions.empty g.inputs).defineAll equations with
      | (_, some cause) => .error (.equation cause)
      | (d, none) => .ok d

/-- Compiles a source for a device. -/
def compile (g : Geometry) (source : String) : Except CompileError (Compilation g) := do
  let definitions ← definitions g source
  let selected ← (definitions.outputs g.outputs).mapError .outputs
  let outputs ← (selected.map Output.expand).mapM ExpandedOutput.split
  let fuseMap ← (FuseMap.assemble g (outputs.map CompiledOutput.terms)).mapError .assembly
  return ⟨outputs, fuseMap⟩

end Compilation

end ArrayLogic
