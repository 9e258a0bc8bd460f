import ArrayLogic.Formula.TruthTable
import ArrayLogic.Proofs.Formula.Support
import ArrayLogic.Proofs.Text.Lines
import ArrayLogic.Proofs.Traversal
import Mathlib.Data.Nat.Init
import Mathlib.Logic.ExistsUnique

/-! # Printed truth tables

A printed table shows each signal of its formula above the values that the rows give to it. The bits
of the row numbers run through all combinations of values, so every assignment is shown by exactly
one row, and this row ends with the value of the formula.
-/

namespace ArrayLogic.TruthTable

open Text (bitChar)

/-! ## Columns -/

/-- Where a column begins: behind the names of the columns before it and the blanks that follow
them. -/
def place (columns : List Signal) (j : Nat) : Nat :=
  ((columns.take j).flatMap fun s => s.chars ++ [' ']).length

section Cells

variable {cell : Signal × Nat → List Char}
  (hcell : ∀ s j, (cell (s, j)).length = s.chars.length + 1)
include hcell

theorem length_flatMap_cell (columns : List Signal) (start : Nat) :
    ((columns.zipIdx start).flatMap cell).length =
      (columns.flatMap fun s => s.chars ++ [' ']).length := by
  induction columns generalizing start with
  | nil => rfl
  | cons s rest ih =>
      rw [List.zipIdx_cons, List.flatMap_cons, List.flatMap_cons, List.length_append,
        List.length_append, hcell, ih, List.length_append, List.length_singleton]

/-- Cells that are as wide as the names above them begin where their columns do. -/
theorem cell_prefix {columns : List Signal} {j : Nat} {s : Signal} (h : columns[j]? = some s)
    (rest : List Char) :
    cell (s, j) <+: (columns.zipIdx.flatMap cell ++ rest).drop (place columns j) := by
  obtain ⟨hj, rfl⟩ := List.getElem?_eq_some_iff.mp h
  have hsplit : columns.zipIdx.flatMap cell = (columns.take j).zipIdx.flatMap cell ++
      (cell (columns[j], j) ++ ((columns.drop (j + 1)).zipIdx (j + 1)).flatMap cell) := by
    conv => lhs; rw [← List.take_append_drop j columns, List.drop_eq_getElem_cons hj]
    rw [List.zipIdx_append, List.flatMap_append, List.length_take_of_le (Nat.le_of_lt hj),
      Nat.zero_add, List.zipIdx_cons, List.flatMap_cons]
  have hplace : ((columns.take j).zipIdx.flatMap cell).length = place columns j :=
    length_flatMap_cell hcell _ 0
  rw [hsplit, List.append_assoc, List.drop_left' hplace, List.append_assoc]
  exact List.prefix_append _ _

theorem drop_cells (columns : List Signal) (rest : List Char) :
    (columns.zipIdx.flatMap cell ++ rest).drop (place columns columns.length) = rest := by
  apply List.drop_left'
  rw [place, List.take_length]
  exact length_flatMap_cell hcell columns 0

end Cells

/-! ## Lines -/

/-- The name of a column, with the blank behind it. -/
def nameCell (column : Signal × Nat) : List Char :=
  column.1.chars ++ [' ']

theorem length_nameCell (s : Signal) (j : Nat) : (nameCell (s, j)).length = s.chars.length + 1 :=
  List.length_append

/-- The cell of a row in a column, as wide as the name above it. -/
def cell (k : Nat) (column : Signal × Nat) : List Char :=
  bitChar (k.testBit column.2) :: List.replicate column.1.chars.length ' '

theorem length_cell (k : Nat) (s : Signal) (j : Nat) :
    (cell k (s, j)).length = s.chars.length + 1 := by
  rw [cell, List.length_cons, List.length_replicate]

/-- The row shows the values that the assignment gives to the columns. -/
def Shows (columns : List Signal) (row : List Char) (v : Assignment) : Prop :=
  ∀ j s, columns[j]? = some s → row[place columns j]? = some (bitChar (v s))

/-- The lines are the truth table of the formula. -/
structure Tabulates (header : List Char) (rows : List (List Char)) (name : String) (f : Formula)
    (columns : List Signal) : Prop where
  mem_columns : ∀ s, s ∈ columns ↔ f.Occurs s
  increasing : columns.Pairwise (·.index < ·.index)
  header_cell : ∀ j s, columns[j]? = some s → nameCell (s, j) <+: header.drop (place columns j)
  header_end : header.drop (place columns columns.length) = '|' :: ' ' :: name.toList
  length_rows : rows.length = Nat.pow 2 columns.length
  /-- Row `k` shows bit `j` of `k` under the name of column `j`. -/
  row_cell : ∀ (k : Nat) row, rows[k]? = some row → ∀ j s, columns[j]? = some s →
    cell k (s, j) <+: row.drop (place columns j)
  existsUnique_row : ∀ v, ∃! k : Nat, ∃ row, rows[k]? = some row ∧ Shows columns row v
  /-- The row that shows an assignment ends with the value under it. -/
  row_end : ∀ v, ∀ row ∈ rows, Shows columns row v →
    row.drop (place columns columns.length) = ['|', ' ', bitChar (f.eval v)]

section Lines

variable (t : TruthTable)

theorem header_eq :
    t.header = t.columns.zipIdx.flatMap nameCell ++ '|' :: ' ' :: t.name.toList := by
  rw [header, ← flatMap_zipIdx_fst, List.append_assoc]
  rfl

theorem header_cell {j : Nat} {s : Signal} (h : t.columns[j]? = some s) :
    nameCell (s, j) <+: t.header.drop (place t.columns j) := by
  rw [header_eq]
  exact cell_prefix length_nameCell h _

theorem drop_header :
    t.header.drop (place t.columns t.columns.length) = '|' :: ' ' :: t.name.toList := by
  rw [header_eq]
  exact drop_cells length_nameCell _ _

theorem line_eq (k : Nat) :
    t.line k = t.columns.zipIdx.flatMap (cell k) ++ ['|', ' ', bitChar (t.value k)] :=
  rfl

theorem line_cell {j : Nat} {s : Signal} (h : t.columns[j]? = some s) (k : Nat) :
    cell k (s, j) <+: (t.line k).drop (place t.columns j) := by
  rw [line_eq]
  exact cell_prefix (length_cell k) h _

theorem drop_line (k : Nat) :
    (t.line k).drop (place t.columns t.columns.length) = ['|', ' ', bitChar (t.value k)] := by
  rw [line_eq]
  exact drop_cells (length_cell k) _ _

theorem bitChar_inj {a b : Bool} : bitChar a = bitChar b ↔ a = b := by
  cases a <;> cases b <;> decide

theorem shows_line_iff {k : Nat} {v : Assignment} :
    Shows t.columns (t.line k) v ↔ ∀ j s, t.columns[j]? = some s → k.testBit j = v s := by
  apply forall₃_congr
  intro j s hs
  obtain ⟨rest, hrest⟩ := t.line_cell hs k
  have hbit : (t.line k)[place t.columns j]? = some (bitChar (k.testBit j)) := by
    rw [← Nat.add_zero (place t.columns j), ← List.getElem?_drop, ← hrest]
    rfl
  rw [hbit, Option.some_inj, bitChar_inj]

end Lines

/-! ## Assignments -/

/-- The bits of the numbers below a power of two run through all sequences of values. -/
theorem existsUnique_number (columns : List Signal) (v : Assignment) :
    ∃! k, k < Nat.pow 2 columns.length ∧ ∀ j s, columns[j]? = some s → k.testBit j = v s := by
  refine ⟨Nat.ofBits fun j : Fin columns.length => v columns[j], ⟨?_, ?_⟩, ?_⟩
  · exact Nat.ofBits_lt_two_pow _
  · intro j s hs
    obtain ⟨hj, rfl⟩ := List.getElem?_eq_some_iff.mp hs
    exact Nat.testBit_ofBits_lt _ j hj
  · intro k hk
    obtain ⟨hlt, hbits⟩ := hk
    apply Nat.eq_of_testBit_eq
    intro j
    by_cases hj : j < columns.length
    · rw [hbits j _ (List.getElem?_eq_getElem hj), Nat.testBit_ofBits_lt _ j hj]
      rfl
    · -- Numbers below the power have no bits behind the last column.
      have hle : columns.length ≤ j := Nat.not_lt.mp hj
      rw [Nat.testBit_ofBits_ge _ j hle]
      exact Nat.testBit_lt_two_pow (Nat.lt_of_lt_of_le hlt (Nat.pow_le_pow_right (by decide) hle))

/-- A row gives each signal the value that stands in its own column. -/
theorem assignment_of_getElem? {t : TruthTable} (hnodup : t.columns.Nodup) {j : Nat} {s : Signal}
    (h : t.columns[j]? = some s) (k : Nat) : t.assignment k s = k.testBit j := by
  rw [assignment, (idxOf?_eq_some_iff_of_nodup hnodup).mpr h]

theorem value_ofFormula (name : String) {f : Formula} {k : Nat} {v : Assignment}
    (h : ∀ j s, f.support[j]? = some s → k.testBit j = v s) :
    (ofFormula name f).value k = f.eval v := by
  apply Formula.eval_congr
  intro s hs
  obtain ⟨j, hj⟩ := List.mem_iff_getElem?.mp (Formula.mem_support.mpr hs)
  rw [assignment_of_getElem? f.nodup_support hj, h j s hj]

theorem getElem?_map_line {t : TruthTable} {k : Nat} {row : List Char} :
    ((List.range t.rows).map t.line)[k]? = some row ↔ k < t.rows ∧ t.line k = row := by
  rw [List.getElem?_eq_some_iff]
  simp

/-- A printed table consists of the signals of its formula, in order, and of a row for each
combination of their values. Every assignment is shown by one row, which ends with the value of the
formula under this assignment. With fewer than sixty-four signals the number of rows fits a machine
word. -/
theorem text_tabulates (name : String) (f : Formula) :
    ∃ header rows, (ofFormula name f).text.toList = Text.ofLines (header :: rows) ∧
      Tabulates header rows name f f.support ∧ rows.length = (ofFormula name f).rows ∧
      (f.support.length < 64 → (ofFormula name f).rows < Nat.pow 2 64) := by
  let t := ofFormula name f
  have hlength : ((List.range t.rows).map t.line).length = t.rows := by
    rw [List.length_map, List.length_range]
  refine ⟨t.header, (List.range t.rows).map t.line, String.toList_ofList, ?_, hlength, ?_⟩
  · constructor
    case mem_columns => exact fun s => Formula.mem_support
    case increasing => exact f.pairwise_support
    case header_cell => exact fun j s hs => t.header_cell hs
    case header_end => exact t.drop_header
    case length_rows => exact hlength
    case row_cell =>
      intro k row hrow j s hs
      obtain ⟨-, rfl⟩ := getElem?_map_line.mp hrow
      exact t.line_cell hs k
    case existsUnique_row =>
      intro v
      have hshown (k : Nat) : (∃ row, ((List.range t.rows).map t.line)[k]? = some row ∧
          Shows f.support row v) ↔
          k < t.rows ∧ ∀ j s, f.support[j]? = some s → k.testBit j = v s := by
        simp only [getElem?_map_line, and_assoc, exists_and_left, exists_eq_left']
        exact and_congr_right fun _ => t.shows_line_iff
      simp only [hshown]
      exact existsUnique_number f.support v
    case row_end =>
      intro v row hrow hshows
      obtain ⟨k, -, rfl⟩ := List.mem_map.mp hrow
      exact (t.drop_line k).trans (by rw [value_ofFormula name (t.shows_line_iff.mp hshows)])
  · intro hsignals
    exact Nat.pow_lt_pow_right (by decide) hsignals

/-- The names of the two columns have different widths, and the formula mentions the second one
first. -/
theorem text_tabulates_exclusive_or :
    let lit (k : Nat) (p : Polarity) : Formula := .lit ((Signal.ofIndex k).literal p)
    let f := (lit 10 .complement).xor (lit 0 .direct)
    (ofFormula "O1" f).text = "I0 I10 | O1\n0  0   | 1\n1  0   | 0\n0  1   | 0\n1  1   | 1\n" ∧
      f.support = [.ofIndex 0, .ofIndex 10] ∧ (ofFormula "O1" f).rows < Nat.pow 2 64 ∧
      ∃ header rows, (ofFormula "O1" f).text.toList = Text.ofLines (header :: rows) ∧
        Tabulates header rows "O1" f [.ofIndex 0, .ofIndex 10] := by
  intro lit f
  obtain ⟨header, rows, htext, htable, -, hrows⟩ := text_tabulates "O1" f
  have hsupport : f.support = [.ofIndex 0, .ofIndex 10] := by decide
  refine ⟨by decide +kernel, hsupport, hrows (by decide), header, rows, htext, ?_⟩
  exact hsupport ▸ htable

end ArrayLogic.TruthTable
