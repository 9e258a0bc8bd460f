import ArrayLogic.Text.Numeral

/-! # Bit matrices

A matrix of bits keeps each row in words of 64 bits: column `c` is bit `c % 64` of word `c / 64`.
Bits of the last word beyond the columns are never set, so that matrices with equal bits are equal.
The shape is part of the type. Access outside the shape has no result, and `bit_set` says that a
write changes one bit and no other.
-/

namespace ArrayLogic

open Text (bitChar)

/-- The storage unit of a row. -/
abbrev Word := BitVec 64

namespace Word

/-- The number of words that hold a row. -/
def countFor (columns : Nat) : Nat :=
  (columns + 63) / 64

theorem index_lt_countFor {column columns : Nat} (h : column < columns) :
    column / 64 < countFor columns := by
  unfold countFor
  omega

/-- The word with one bit changed. -/
def setBit (word : Word) (position : Nat) (bit : Bool) : Word :=
  if bit then word ||| (1#64 <<< position) else word &&& ~~~(1#64 <<< position)

theorem getLsbD_setBit (word : Word) {position : Nat} (hposition : position < 64) (bit : Bool)
    (i : Nat) : (word.setBit position bit).getLsbD i =
      if position = i then bit else word.getLsbD i := by
  have hmask : (1#64 <<< position).getLsbD i = decide (position = i) := by
    rw [BitVec.getLsbD_shiftLeft, BitVec.getLsbD_one]
    by_cases heq : position = i
    · subst heq
      simp [hposition]
    · have hne : ¬(¬i < position ∧ i - position = 0) := by omega
      simp only [heq, decide_false]
      grind
  by_cases hi : i < 64
  · cases bit
    · simp only [setBit, Bool.false_eq_true, ↓reduceIte, BitVec.getLsbD_and, BitVec.getLsbD_not,
        hmask, hi, decide_true, Bool.true_and]
      by_cases heq : position = i <;> simp [heq]
    · simp only [setBit, ↓reduceIte, BitVec.getLsbD_or, hmask]
      by_cases heq : position = i <;> simp [heq]
  · have hne : position ≠ i := by omega
    rw [if_neg hne, BitVec.getLsbD_of_ge _ _ (by omega), BitVec.getLsbD_of_ge _ _ (by omega)]

/-- The number of set bits. -/
def ones (word : Word) : Nat :=
  (List.range 64).countP word.getLsbD

end Word

/-- A matrix of bits in packed rows. -/
structure BitMatrix (rows columns : Nat) where
  words : Vector (Vector Word (Word.countFor columns)) rows
deriving DecidableEq, Repr

namespace BitMatrix

variable {rows columns : Nat}

/-- The matrix without set bits. Every row is filled for itself, so that a matrix without rows takes
no space however many columns it has. -/
def zero (rows columns : Nat) : BitMatrix rows columns :=
  ⟨.ofFn fun _ => .replicate (Word.countFor columns) 0#64⟩

/-- The bit at a position, unset outside the matrix. -/
def bit (m : BitMatrix rows columns) (row column : Nat) : Bool :=
  if h : row < rows ∧ column < columns then
    have := Word.index_lt_countFor h.2
    m.words[row][column / 64].getLsbD (column % 64)
  else false

/-- The bit at a position inside the matrix. -/
def bit? (m : BitMatrix rows columns) (row column : Nat) : Option Bool :=
  if row < rows ∧ column < columns then some (m.bit row column) else none

/-- The matrix with one bit changed, the same matrix for a position outside. -/
def set (m : BitMatrix rows columns) (row column : Nat) (bit : Bool) : BitMatrix rows columns :=
  if h : row < rows ∧ column < columns then
    have := Word.index_lt_countFor h.2
    let words := m.words[row]
    let word := words[column / 64].setBit (column % 64) bit
    ⟨m.words.set row (words.set (column / 64) word)⟩
  else m

/-- The matrix with one bit changed at a position inside. -/
def set? (m : BitMatrix rows columns) (row column : Nat) (bit : Bool) :
    Option (BitMatrix rows columns) :=
  if row < rows ∧ column < columns then some (m.set row column bit) else none

/-- The matrix with the bits at all the positions set. -/
def setAll (m : BitMatrix rows columns) (positions : List (Nat × Nat)) : BitMatrix rows columns :=
  positions.foldl (fun m position => m.set position.1 position.2 true) m

@[simp] theorem bit_zero (row column : Nat) : (zero rows columns).bit row column = false := by
  unfold bit
  split
  · simp [zero]
  · rfl

theorem lt_of_bit {m : BitMatrix rows columns} {row column : Nat} (h : m.bit row column = true) :
    row < rows ∧ column < columns := by
  unfold bit at h
  split at h
  next hinside => exact hinside
  next => simp at h

/-- A write changes one of the stored bits, those behind the columns included. -/
theorem getLsbD_words_set (m : BitMatrix rows columns) {row column : Nat} (hrow : row < rows)
    (hcolumn : column < columns) (bit : Bool) {i k j : Nat} (hi : i < rows)
    (hk : k < Word.countFor columns) (hj : j < 64) :
    (m.set row column bit).words[i][k].getLsbD j =
      if row = i ∧ column = 64 * k + j then bit else m.words[i][k].getLsbD j := by
  simp only [set, hrow, hcolumn, and_self, ↓reduceDIte, Vector.getElem_set]
  by_cases heq : row = i
  · subst heq
    by_cases hword : column / 64 = k
    · subst hword
      have hplace : column % 64 = j ↔ column = 64 * (column / 64) + j := by omega
      simp only [↓reduceIte, Vector.getElem_set_self, true_and]
      rw [Word.getLsbD_setBit _ (Nat.mod_lt _ (by decide))]
      simp only [hplace]
    · have hne : column ≠ 64 * k + j := by omega
      simp [hword, hne]
  · simp [heq]

theorem bit_set (m : BitMatrix rows columns) {row column : Nat} (hrow : row < rows)
    (hcolumn : column < columns) (bit : Bool) (i j : Nat) :
    (m.set row column bit).bit i j = if row = i ∧ column = j then bit else m.bit i j := by
  by_cases hinside : i < rows ∧ j < columns
  · have hword := Word.index_lt_countFor hinside.2
    simp only [BitMatrix.bit, hinside, and_self, ↓reduceDIte]
    rw [m.getLsbD_words_set hrow hcolumn bit hinside.1 hword (Nat.mod_lt _ (by decide)),
      Nat.div_add_mod]
  · have hne : ¬(row = i ∧ column = j) := by
      rintro ⟨rfl, rfl⟩
      exact hinside ⟨hrow, hcolumn⟩
    simp [BitMatrix.bit, hinside, hne]

theorem bit_setAll (m : BitMatrix rows columns) (positions : List (Nat × Nat))
    (hinside : ∀ position ∈ positions, position.1 < rows ∧ position.2 < columns) (i j : Nat) :
    (m.setAll positions).bit i j = (decide ((i, j) ∈ positions) || m.bit i j) := by
  induction positions generalizing m with
  | nil => simp [setAll]
  | cons position rest ih =>
    obtain ⟨hrow, hcolumn⟩ := hinside position List.mem_cons_self
    have hrest := ih (m.set position.1 position.2 true)
      fun p hp => hinside p (List.mem_cons_of_mem _ hp)
    rw [setAll] at hrest ⊢
    rw [List.foldl_cons, hrest, bit_set m hrow hcolumn]
    by_cases heq : position.1 = i ∧ position.2 = j
    · have hposition : (i, j) = position := Prod.ext heq.1.symm heq.2.symm
      simp [heq, hposition]
    · have hposition : (i, j) ≠ position := by
        rintro rfl
        exact heq ⟨rfl, rfl⟩
      simp [heq, hposition]

/-- The bits of a row in column order. -/
def row (m : BitMatrix rows columns) (row : Nat) : List Bool :=
  (List.range columns).map (m.bit row)

@[simp] theorem length_row (m : BitMatrix rows columns) (row : Nat) :
    (m.row row).length = columns := by
  simp [BitMatrix.row]

def rowChars (m : BitMatrix rows columns) (row : Nat) : List Char :=
  (m.row row).map bitChar

/-- A row as digits. -/
def rowText? (m : BitMatrix rows columns) (row : Nat) : Option String :=
  if row < rows then some (String.ofList (m.rowChars row)) else none

/-- The words of a row. -/
def packedRow? (m : BitMatrix rows columns) (row : Nat) : Option (List Word) :=
  m.words[row]?.map Vector.toList

/-- Whether a row has no set bit. -/
def rowIsZero? (m : BitMatrix rows columns) (row : Nat) : Option Bool :=
  (m.packedRow? row).map fun words => words.all (· == 0#64)

/-- The number of set bits. -/
def ones (m : BitMatrix rows columns) : Nat :=
  (m.words.toList.flatMap Vector.toList).foldl (fun total word => total + word.ones) 0

/-- All bits, row by row. -/
def bits (m : BitMatrix rows columns) : List Bool :=
  (List.range rows).flatMap m.row

@[simp] theorem length_bits (m : BitMatrix rows columns) : m.bits.length = rows * columns := by
  simp only [bits, List.length_flatMap, length_row]
  rw [List.map_const', List.length_range, List.sum_replicate_nat]

/-- The rows as a bracketed list of quoted digits. -/
def listing (m : BitMatrix rows columns) : String :=
  let rows := (List.range rows).map fun row => "\"" ++ String.ofList (m.rowChars row) ++ "\""
  "[" ++ ", ".intercalate rows ++ "]"

end BitMatrix

end ArrayLogic
