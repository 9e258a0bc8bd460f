import ArrayLogic.Compilation
import ArrayLogic.Journal

/-! # Journals of the stages

Each stage of a compilation leaves records about what it did. A stage that fails leaves the records
up to its failure, and later stages leave none.
-/

namespace ArrayLogic

open Text (quoted)

/-- Reading a source records the number of its equations. -/
def Source.journal (text : String) : Journal :=
  match Source.read text with
  | .ok equations => [⟨.debug, .source, s!"read {equations.length} equation(s)"⟩]
  | .error _ => []

namespace Definitions

/-- A definition records its formula, and a warning if the name was bound before. -/
def defineJournal (d : Definitions) (e : Equation) : Journal :=
  match d.formulaOf e with
  | .ok f =>
      ⟨.trace, .definitions, s!"{e.name} = {f.text}"⟩ ::
        if (d.get? e.name).isSome then
          [⟨.warn, .definitions, s!"line {e.line}: {e.name} is redefined, " ++
            "replacing the earlier definition"⟩]
        else []
  | .error _ => []

/-- The records of the definitions up to the first that fails. -/
def defineAllJournal (d : Definitions) : List Equation → Journal
  | [] => []
  | e :: rest => d.defineJournal e ++
      match d.define e with
      | .ok next => next.defineAllJournal rest
      | .error _ => []

/-- Selecting the outputs records their number. -/
def outputsJournal (d : Definitions) (count : Nat) : Journal :=
  match d.outputs count with
  | .ok outputs => [⟨.debug, .definitions, s!"{outputs.length} output(s) defined"⟩]
  | .error _ => []

end Definitions

namespace NormalForm

/-- Splitting a text into symbols records their number. -/
def symbolsJournal (text : String) : Journal :=
  match symbols text with
  | .ok found => [⟨.trace, .symbols, s!"tokens of {quoted text}: {found.length}"⟩]
  | .error _ => []

/-- Reading the terms of a text records their number. -/
def termsJournal (text : String) : Journal :=
  symbolsJournal text ++
    match readTerms text with
    | .ok terms =>
        [⟨.trace, .normalForm, s!"extracted {terms.length} term(s) from {quoted text}"⟩]
    | .error _ => []

end NormalForm

/-- Assembly records the number of columns in use and then, if they suffice, the term of each column
up to the first term with an input that the device lacks. -/
def FuseMap.assemblyJournal (device : Device) (outputs : List (List Term)) : Journal :=
  let g := device.geometry
  let pool := TermPool.ofOutputs outputs
  let fits (column : Term × Nat) := column.1.literals.all fun l => l.index < g.inputs
  let columns := pool.terms.zipIdx
  if g.outputs < outputs.length then []
  else
    ⟨.debug, .assembly, s!"{device.name}: {pool.size} of {g.terms} product term columns used"⟩ ::
      if g.terms < pool.size then []
      else (columns.takeWhile fits ++ (columns.dropWhile fits).take 1).map fun (t, column) =>
        ⟨.trace, .assembly, s!"column {column}: {t.text}"⟩

namespace Compilation

/-- Splitting outputs records each normal form, up to the first that cannot be split into terms. -/
def expansionJournal : List ExpandedOutput → Journal
  | [] => []
  | o :: rest =>
      ⟨.debug, .compiler, s!"{o.name} = {o.normalForm}"⟩ :: NormalForm.termsJournal o.normalForm ++
        match o.split with
        | .ok _ => expansionJournal rest
        | .error _ => []

/-- Assembling compiled outputs records the size of the result. -/
def resultJournal (device : Device) (outputs : List CompiledOutput) : Journal :=
  let terms := outputs.map CompiledOutput.terms
  FuseMap.assemblyJournal device terms ++
    match FuseMap.assemble device.geometry terms with
    | .ok f => [⟨.info, .compiler, s!"{device.name}: {outputs.length} output(s), {f.poolSize} of " ++
        s!"{device.geometry.terms} product terms, {f.size} bits"⟩]
    | .error _ => []

/-- The records of a compilation. -/
def journal (device : Device) (source : String) : Journal :=
  let g := device.geometry
  let start := Definitions.empty g.inputs
  Source.journal source ++
    match Source.read source with
    | .error _ => []
    | .ok equations => start.defineAllJournal equations ++
        match start.defineAll equations with
        | (_, some _) => []
        | (d, none) => d.outputsJournal g.outputs ++
            match d.outputs g.outputs with
            | .error _ => []
            | .ok outputs =>
                let expanded := outputs.map Output.expand
                expansionJournal expanded ++
                match expanded.mapM ExpandedOutput.split with
                | .error _ => []
                | .ok compiled => resultJournal device compiled

end Compilation

end ArrayLogic
