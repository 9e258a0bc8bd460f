import ArrayLogic.CommandLine.Request
import ArrayLogic.Formula.TruthTable
import ArrayLogic.FuseMap.Diagram
import ArrayLogic.Journal.Filter
import ArrayLogic.Journal.Stages

/-! # Outcomes of a run

A run is a function of the request, the journal setting and the contents of the file. It exits with
status 0 if the request could be served, 1 if the file cannot be read or compiled, and 2 if the
command line is no request.
-/

namespace ArrayLogic.CommandLine

/-- The result of a run: the exit status, the standard output, the lines of the journal, and a
complaint if the run failed. -/
structure Outcome where
  exit : Nat
  stdout : String
  log : List String
  complaint : Option String
deriving DecidableEq, Repr

/-- The device that sources are compiled for. -/
def device : Device :=
  Device.tt06Pal

/-- The answer to a request for the version. -/
def versionText : String :=
  "palc 0.1.0\n"

/-- The filter of the journal: the setting if there is one, otherwise the level that the debug option
asks for. -/
def journalFilter (setting : Option String) (debug : Nat) : Journal.Filter :=
  match setting with
  | some text => .read text
  | none => [.everywhere (some (.ofDebug debug))]

/-- The standard output of a successful compilation. -/
def report {g : Geometry} (options : Options) (c : Compilation g) : String :=
  let equations := c.outputs.map fun o => s!"{o.name} = {o.normalForm}\n"
  let tables := c.outputs.map fun o => (TruthTable.ofFormula o.name o.formula).text ++ "\n"
  let diagram := c.fuseMap.diagram ++ "\n"
  String.join (if 1 ≤ options.debug then equations ++ ["\n"] else []) ++
    String.join (if 3 ≤ options.debug then tables else []) ++
    (if 1 ≤ options.debug || options.diagram then diagram else "") ++
    options.encoding.render c.fuseMap ++ "\n"

/-- Compiles the contents of the file, which are missing if it cannot be read. -/
def compileFile (options : Options) (setting : Option String) (contents : Option ByteArray) :
    Outcome :=
  match contents.bind String.fromUTF8? with
  | none => ⟨1, "", [], some s!"failed to read {options.file}"⟩
  | some source =>
      let opening : Record :=
        ⟨.info, .compiler, s!"compiling {options.file} for {device.name}"⟩
      let journal : Journal := opening :: Compilation.journal device source
      let shown : Journal := journal.filter (journalFilter setting options.debug).admits
      match Compilation.compile device.geometry source with
      | .ok c => ⟨0, report options c, shown.lines, none⟩
      | .error error => ⟨1, "", shown.lines, some error.message⟩

/-- Serves a request, given what the file of its options contains. -/
def serve (request : Request) (setting : Option String) (contents : Option ByteArray) : Outcome :=
  match request with
  | .version => ⟨0, versionText, [], none⟩
  | .compile options => compileFile options setting contents

/-- The outcome of a command line that cannot be read. -/
def refuse (error : UsageError) : Outcome :=
  ⟨2, "", [], some error.message⟩

end ArrayLogic.CommandLine
