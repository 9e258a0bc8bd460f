import ArrayLogic.FuseMap
import ArrayLogic.TermPool

/-! # Assembling fuse maps

The terms of all outputs are pooled, each pooled term gets a column of the AND plane, and the OR
plane connects every output to the columns of its terms. Assembly fails if there are more outputs
than the device has, more distinct terms than columns, or a literal of an input that the device
lacks, and reports the first of these that applies.
-/

namespace ArrayLogic

/-- Why terms cannot be mapped onto a device. -/
inductive AssemblyError where
  | capacityExceeded (poolSize capacity : Nat)
  | signalOutOfRange (literal : Literal) (inputs : Nat)
  | tooManyOutputs (configured outputs : Nat)
deriving DecidableEq, Repr

def AssemblyError.message : AssemblyError → String
  | .capacityExceeded poolSize capacity =>
      s!"{poolSize} distinct product terms exceed the {capacity} available columns by " ++
        toString (poolSize - capacity)
  | .signalOutOfRange literal inputs =>
      s!"literal {literal.text} refers to input {literal.index}, " ++
        s!"but the device has only {inputs} inputs"
  | .tooManyOutputs configured outputs =>
      s!"{configured} outputs configured, but the device has only {outputs} outputs"

namespace TermPool

/-- Fails if there are more terms than columns. -/
def checkCapacity (pool : TermPool) (capacity : Nat) : Except AssemblyError Unit :=
  if capacity < pool.size then .error (.capacityExceeded pool.size capacity) else .ok ()

/-- The literals of all terms, column by column. -/
def literals (pool : TermPool) : List Literal :=
  pool.terms.flatMap Term.literals

/-- The fuses of the AND plane: the row of every literal in the column of its term. -/
def andFuses (pool : TermPool) : List (Nat × Nat) :=
  pool.terms.zipIdx.flatMap fun (t, column) => t.literals.map fun l => (l.code, column)

/-- The fuses of the OR plane: the row of every output in the columns of its terms. -/
def orFuses (pool : TermPool) (outputs : List (List Term)) : List (Nat × Nat) :=
  outputs.zipIdx.flatMap fun (terms, row) =>
    terms.filterMap fun t => (pool.column? t).map fun column => (row, column)

end TermPool

namespace FuseMap

/-- The fuse map of a pool that fits the device. -/
def ofPool (g : Geometry) (pool : TermPool) (outputs : List (List Term)) : FuseMap g where
  andPlane := (BitMatrix.zero g.andRows g.terms).setAll pool.andFuses
  orPlane := (BitMatrix.zero g.outputs g.terms).setAll (pool.orFuses outputs)
  poolSize := pool.size
  configured := outputs.length

/-- Maps the terms of each output onto a device. -/
def assemble (g : Geometry) (outputs : List (List Term)) : Except AssemblyError (FuseMap g) :=
  let pool := TermPool.ofOutputs outputs
  if g.outputs < outputs.length then .error (.tooManyOutputs outputs.length g.outputs)
  else match pool.checkCapacity g.terms with
    | .error error => .error error
    | .ok () =>
        match pool.literals.find? fun l => g.inputs ≤ l.index with
        | some l => .error (.signalOutOfRange l g.inputs)
        | none => .ok (ofPool g pool outputs)

end FuseMap

end ArrayLogic
