import ArrayLogic.CommandLine.Outcome

/-! # The program

Reads the file, the journal setting and the command line, and shows the outcome: the result on the
standard output, the journal and any complaint on the standard error.
-/

namespace ArrayLogic

/-- The contents of a file, nothing if it cannot be read. -/
def readContents (file : String) : IO (Option ByteArray) := do
  try
    return some (← IO.FS.readBinFile file)
  catch _ =>
    return none

/-- Serves a command line. -/
def outcome (arguments : List String) : IO CommandLine.Outcome := do
  match CommandLine.read arguments with
  | .error error => return CommandLine.refuse error
  | .ok .version => return CommandLine.serve .version none none
  | .ok (.compile options) =>
      let setting ← IO.getEnv "PALC_LOG"
      let contents ← readContents options.file
      return CommandLine.serve (.compile options) setting contents

end ArrayLogic

def main (arguments : List String) : IO UInt32 := do
  let outcome ← ArrayLogic.outcome arguments
  for line in outcome.log do
    IO.eprintln line
  IO.print outcome.stdout
  if let some complaint := outcome.complaint then
    IO.eprintln s!"error: {complaint}"
  return outcome.exit.toUInt32
