/-! # Journals

What happens during a run is recorded as a list of records. Each record has a level, the part of the
program it comes from, and a message. A threshold selects the records that are shown.
-/

namespace ArrayLogic

/-- How severe a record is, most severe first. -/
inductive Level where
  | error
  | warn
  | info
  | debug
  | trace
deriving DecidableEq, Repr

namespace Level

/-- The position in the order of decreasing severity. -/
def rank : Level → Nat
  | error => 1
  | warn => 2
  | info => 3
  | debug => 4
  | trace => 5

/-- The name shown in a journal. -/
def label : Level → String
  | error => "ERROR"
  | warn => "WARN"
  | info => "INFO"
  | debug => "DEBUG"
  | trace => "TRACE"

/-- The name used to select a level. -/
def name : Level → String
  | error => "error"
  | warn => "warn"
  | info => "info"
  | debug => "debug"
  | trace => "trace"

end Level

/-- The least severe level that is shown, if any is. -/
abbrev Threshold := Option Level

namespace Threshold

/-- The threshold of a name in any mixture of cases. -/
def ofName? (name : String) : Option Threshold :=
  match name.toLower with
  | "off" => some none
  | "error" => some (some .error)
  | "warn" => some (some .warn)
  | "info" => some (some .info)
  | "debug" => some (some .debug)
  | "trace" => some (some .trace)
  | _ => none

/-- Whether records of a level are shown. -/
def admits : Threshold → Level → Bool
  | none, _ => false
  | some least, level => level.rank ≤ least.rank

end Threshold

/-- The level that a debug setting asks for. -/
def Level.ofDebug : Nat → Level
  | 0 => .info
  | 1 => .debug
  | _ => .trace

/-- The part of the program that a record comes from. -/
inductive Origin where
  | compiler
  | source
  | definitions
  | symbols
  | normalForm
  | assembly
deriving DecidableEq, Repr

/-- The name under which an origin appears in a journal. -/
def Origin.path : Origin → String
  | .compiler => "palc"
  | .source => "palc_equations::source"
  | .definitions => "palc_equations::env"
  | .symbols => "palc_dnf::token"
  | .normalForm => "palc_dnf"
  | .assembly => "palc_bitstream::assemble"

/-- One entry of a journal. -/
structure Record where
  level : Level
  origin : Origin
  message : String
deriving DecidableEq, Repr

/-- The line of a record: the label in five columns, then the message. -/
def Record.line (r : Record) : String :=
  r.level.label.pushn ' ' (5 - r.level.label.length) ++ " " ++ r.message

/-- Records in the order in which they were made. -/
abbrev Journal := List Record

namespace Journal

/-- The records that a threshold admits. -/
def select (threshold : Threshold) (journal : Journal) : Journal :=
  journal.filter fun r => threshold.admits r.level

/-- The lines of the records. An origin stands on a line of its own whenever it differs from the
previous one. -/
def linesAfter : Option Origin → Journal → List String
  | _, [] => []
  | previous, r :: rest =>
      if previous = some r.origin then r.line :: linesAfter previous rest
      else r.origin.path :: r.line :: linesAfter (some r.origin) rest

def lines (journal : Journal) : List String :=
  journal.linesAfter none

end Journal

end ArrayLogic
