import ArrayLogic.Formula

/-! # Truth tables

The table of a formula has a column for each signal of its support and a row for each assignment of
them. The first column changes fastest: row `k` shows bit `j` of `k` under the `j`-th signal.
-/

namespace ArrayLogic

/-- The table of the equation `name = formula`. -/
structure TruthTable where
  name : String
  formula : Formula
  /-- The signals that have a column. -/
  columns : List Signal

namespace TruthTable

open Text (bitChar)

/-- The table with a column for each signal of the formula. -/
def ofFormula (name : String) (f : Formula) : TruthTable :=
  ⟨name, f, f.support⟩

/-- The number of rows. -/
def rows (t : TruthTable) : Nat :=
  Nat.pow 2 t.columns.length

/-- The assignment of a row. Signals without a column are zero. -/
def assignment (t : TruthTable) (row : Nat) : Assignment := fun s =>
  match t.columns.idxOf? s with
  | some column => row.testBit column
  | none => false

/-- The value of the formula in a row. -/
def value (t : TruthTable) (row : Nat) : Bool :=
  t.formula.eval (t.assignment row)

/-- The first line: the signals and, behind a bar, the name. -/
def header (t : TruthTable) : List Char :=
  t.columns.flatMap (fun s => s.chars ++ [' ']) ++ ['|', ' '] ++ t.name.toList

/-- The line of a row, aligned with the header. -/
def line (t : TruthTable) (row : Nat) : List Char :=
  t.columns.zipIdx.flatMap (fun (s, column) =>
    bitChar (row.testBit column) :: List.replicate s.chars.length ' ') ++
    ['|', ' ', bitChar (t.value row)]

def lines (t : TruthTable) : List (List Char) :=
  t.header :: (List.range t.rows).map t.line

def text (t : TruthTable) : String :=
  String.ofList (t.lines.flatMap (· ++ ['\n']))

end TruthTable

end ArrayLogic
