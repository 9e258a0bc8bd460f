import ArrayLogic.Text.Layout

/-! # Equation sources

A source has one equation `name = expression` on a line. A `#` starts a comment, blank lines are
skipped, and both sides of an equation may only use the characters of the equation language. Lines
are judged one by one: a source with any invalid line has no equations, and every invalid line is
reported.
-/

namespace ArrayLogic

/-- One equation of a source. The right-hand side is not read yet. -/
structure Equation where
  name : String
  expression : String
  line : Nat
deriving DecidableEq, Repr

namespace Source

open Text (isBlank lines quoted trim)

/-- Why a line is not an equation. -/
inductive Defect where
  | missingEquals
  | emptySide
  | unsupportedCharacters
deriving DecidableEq, Repr

def Defect.reason : Defect → String
  | .missingEquals => "missing \x27=\x27"
  | .emptySide => "empty side"
  | .unsupportedCharacters => "unsupported characters"

/-- A line that is not an equation, as it stands in the source. Lines count from one. -/
structure InvalidLine where
  line : Nat
  text : String
  defect : Defect
deriving DecidableEq, Repr

def InvalidLine.message (invalid : InvalidLine) : String :=
  s!"invalid equation in line {invalid.line}: {quoted invalid.text} ({invalid.defect.reason})"

/-- Whether a character belongs to the equation language. -/
def isSafeChar (c : Char) : Bool :=
  isBlank c || c.isDigit || ['T', 'I', 'O', '^', '&', '|', '~', '(', ')'].contains c

/-- Whether a text is not empty and uses only characters of the equation language. -/
def isSafe (text : List Char) : Bool :=
  !text.isEmpty && text.all isSafeChar

/-- A line without its comment and the blanks around it. -/
def content (line : List Char) : List Char :=
  trim (line.takeWhile (· != '#'))

/-- The two sides of an equation, nothing for a line without content. -/
def sides (line : List Char) : Except Defect (Option (List Char × List Char)) :=
  let content := content line
  let name := trim (content.takeWhile (· != '='))
  let expression := trim ((content.dropWhile (· != '=')).drop 1)
  if content.isEmpty then .ok none
  else if !content.contains '=' then .error .missingEquals
  else if name.isEmpty || expression.isEmpty then .error .emptySide
  else if !(isSafe name && isSafe expression) then .error .unsupportedCharacters
  else .ok (some (name, expression))

/-- The equation on a numbered line, if it holds one. -/
def equation? : List Char × Nat → Option Equation
  | (line, number) => match sides line with
    | .ok (some (name, expression)) =>
        some ⟨String.ofList name, String.ofList expression, number⟩
    | _ => none

/-- The report on a numbered line, if it is invalid. -/
def invalid? : List Char × Nat → Option InvalidLine
  | (line, number) => match sides line with
    | .ok _ => none
    | .error defect => some ⟨number, String.ofList line, defect⟩

/-- The lines of a text with their numbers. -/
def numberedLines (text : String) : List (List Char × Nat) :=
  (lines text.toList).zipIdx 1

/-- The equations of a source, or all its invalid lines. -/
def read (text : String) : Except (List InvalidLine) (List Equation) :=
  match (numberedLines text).filterMap invalid? with
  | [] => .ok ((numberedLines text).filterMap equation?)
  | invalid => .error invalid

/-- The report on all invalid lines. -/
def message (invalid : List InvalidLine) : String :=
  "\n".intercalate (invalid.map InvalidLine.message)

end Source

end ArrayLogic
