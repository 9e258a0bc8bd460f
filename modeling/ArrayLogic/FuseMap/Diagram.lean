import ArrayLogic.FuseMap
import ArrayLogic.Literal

/-! # Fuse diagrams

The diagram shows the AND plane with the literal of each row, a line of ampersands for the product
terms, and the OR plane with the output of each row. All columns are aligned.
-/

namespace ArrayLogic.FuseMap

variable {g : Geometry}

/-- The names of the rows of the AND plane: the literals that they carry. -/
def rowNames (g : Geometry) : List (List Char) :=
  (List.range g.andRows).map fun row => (Literal.ofCode row).chars

/-- The length of the longest row name. -/
def nameWidth (g : Geometry) : Nat :=
  ((rowNames g).map List.length).foldl max 0

/-- The blanks in front of rows without a name. -/
def indent (g : Geometry) : List Char :=
  List.replicate (nameWidth g + 3) ' '

/-- The line of a row of the AND plane. -/
def andLine (f : FuseMap g) (row : Nat) : List Char :=
  let name := (Literal.ofCode row).chars
  name ++ List.replicate (nameWidth g - name.length) ' ' ++ ['-', '>', ' '] ++
    f.andPlane.rowChars row

/-- The line between the planes. -/
def termLine (g : Geometry) : List Char :=
  indent g ++ List.replicate g.terms '&'

/-- The line of a row of the OR plane. -/
def orLine (f : FuseMap g) (output : Nat) : List Char :=
  indent g ++ f.orPlane.rowChars output ++ [' ', '-', '>', ' ', 'O'] ++ Nat.toDigits 10 output

def diagramLines (f : FuseMap g) : List (List Char) :=
  (List.range g.andRows).map f.andLine ++ termLine g ::
    (List.range g.outputs).map f.orLine

/-- The diagram; every line ends with a line feed. -/
def diagram (f : FuseMap g) : String :=
  String.ofList (f.diagramLines.flatMap (· ++ ['\n']))

end ArrayLogic.FuseMap
