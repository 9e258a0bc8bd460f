import ArrayLogic.Journal
import ArrayLogic.Text.Layout

/-! # Journal filters

A filter says which records of which origins are shown. It is written as a list of directives with
commas between them: a level for all origins, such as `debug`, or a level for the origins whose path
starts with a text, such as `palc_dnf=off`. For every origin the directive with the longest start
decides, and of several such directives the last.
-/

namespace ArrayLogic.Journal

open Text (pieces trim)

/-- The threshold for the origins whose path starts with a text; every path starts with the empty
one. -/
structure Directive where
  start : List Char
  threshold : Threshold
deriving DecidableEq, Repr

namespace Directive

/-- The threshold for all origins. -/
def everywhere (threshold : Threshold) : Directive :=
  ⟨[], threshold⟩

/-- Reads a directive. The start of a path alone shows all records of its origins. -/
def read? (text : List Char) : Option Directive :=
  match pieces '=' text with
  | [word] =>
      match Threshold.ofName? (String.ofList word) with
      | some threshold => some (everywhere threshold)
      | none => some ⟨word, some .trace⟩
  | [start, word] =>
      if (trim word).isEmpty then some ⟨start, some .trace⟩
      else (Threshold.ofName? (String.ofList (trim word))).map (⟨start, ·⟩)
  | _ => none

def appliesTo (d : Directive) (origin : Origin) : Bool :=
  d.start.isPrefixOf origin.path.toList

end Directive

/-- Directives in the order in which they are written. -/
abbrev Filter := List Directive

namespace Filter

/-- Reads a filter. What is no directive is passed over, and without any directive only errors are
shown. -/
def read (text : String) : Filter :=
  let parts := ((pieces ',' text.toList).map trim).filter fun part => !part.isEmpty
  match parts.filterMap Directive.read? with
  | [] => [.everywhere (some .error)]
  | directives => directives

/-- The directive that decides about an origin. -/
def directive? (f : Filter) (origin : Origin) : Option Directive :=
  f.foldl (fun best d =>
    if d.appliesTo origin && best.all (·.start.length ≤ d.start.length) then some d else best) none

/-- Whether a record is shown. Origins without a directive show nothing. -/
def admits (f : Filter) (r : Record) : Bool :=
  (f.directive? r.origin).any fun d => d.threshold.admits r.level

end Filter

end ArrayLogic.Journal
