import ArrayLogic.BitMatrix
import Mathlib.Algebra.BigOperators.Fin

/-! # Packed matrices as tables of bits

A packed matrix stands for a table of bits: every stored bit is the bit of the table at its
position, and the bits behind the last column are zero. Writes keep this, whatever is written where.
All that can be observed of a packed matrix is told by its table, and matrices with the same table
are equal.
-/

namespace ArrayLogic

/-- A value for every position of a matrix. -/
abbrev BitTable (rows columns : Nat) := Fin rows → Fin columns → Bool

/-- A bit to be written at a position, which may lie outside the matrix. -/
structure BitWrite where
  row : Nat
  column : Nat
  bit : Bool
deriving DecidableEq, Repr

namespace BitTable

variable {rows columns : Nat}

def zero (rows columns : Nat) : BitTable rows columns :=
  fun _ _ => false

/-- The table with one value changed. There is nothing to change for a position outside. -/
def write (t : BitTable rows columns) (w : BitWrite) : BitTable rows columns := fun r c =>
  if w.row = r ∧ w.column = c then w.bit else t r c

/-- A row continued by zeros. -/
def padded (t : BitTable rows columns) (r : Fin rows) (place : Nat) : Bool :=
  if h : place < columns then t r ⟨place, h⟩ else false

theorem padded_val (t : BitTable rows columns) (r : Fin rows) (c : Fin columns) :
    t.padded r c = t r c :=
  dif_pos c.isLt

theorem padded_of_le (t : BitTable rows columns) (r : Fin rows) {place : Nat}
    (h : columns ≤ place) : t.padded r place = false :=
  dif_neg (Nat.not_lt.mpr h)

theorem padded_eq_false {t : BitTable rows columns} {r : Fin rows} (h : ∀ c, t r c = false)
    (place : Nat) : t.padded r place = false := by
  by_cases hplace : place < columns
  · exact (t.padded_val r ⟨place, hplace⟩).trans (h _)
  · exact t.padded_of_le r (Nat.not_lt.mp hplace)

theorem padded_write (t : BitTable rows columns) {w : BitWrite} (hcolumn : w.column < columns)
    (r : Fin rows) (place : Nat) : (t.write w).padded r place =
      if w.row = r ∧ w.column = place then w.bit else t.padded r place := by
  by_cases hplace : place < columns
  · simp [padded, write, hplace]
  · have hne : w.column ≠ place := by omega
    simp [padded, hplace, hne]

theorem write_of_outside (t : BitTable rows columns) {w : BitWrite}
    (h : ¬(w.row < rows ∧ w.column < columns)) : t.write w = t := by
  funext r c
  refine if_neg ?_
  intro heq
  exact h ⟨heq.1 ▸ r.isLt, heq.2 ▸ c.isLt⟩

end BitTable

namespace BitMatrix

variable {rows columns : Nat}

/-! ## Storage -/

/-- The stored words hold the rows of the table, and zeros behind them. -/
def Packs (m : BitMatrix rows columns) (t : BitTable rows columns) : Prop :=
  ∀ (r : Fin rows) (k : Fin (Word.countFor columns)), ∀ j < 64,
    m.words[r][k].getLsbD j = t.padded r (64 * k + j)

theorem packs_zero : (zero rows columns).Packs (.zero rows columns) := by
  intro r k j _
  simp [zero, BitTable.padded, BitTable.zero]

theorem set?_eq_none_iff {m : BitMatrix rows columns} {row column : Nat} {bit : Bool} :
    m.set? row column bit = none ↔ ¬(row < rows ∧ column < columns) := by
  simp [set?]

/-- The matrix after a bit has been written, or has failed to be. -/
def attempt (m : BitMatrix rows columns) (w : BitWrite) : BitMatrix rows columns :=
  (m.set? w.row w.column w.bit).getD m

theorem attempt_of_set?_eq_none {m : BitMatrix rows columns} {w : BitWrite}
    (h : m.set? w.row w.column w.bit = none) : m.attempt w = m := by
  rw [attempt, h, Option.getD_none]

theorem Packs.attempt {m : BitMatrix rows columns} {t : BitTable rows columns} (h : m.Packs t)
    (w : BitWrite) : (m.attempt w).Packs (t.write w) := by
  by_cases hinside : w.row < rows ∧ w.column < columns
  · have hset : m.attempt w = m.set w.row w.column w.bit := by
      rw [BitMatrix.attempt, set?, if_pos hinside, Option.getD_some]
    intro r k j hj
    rw [t.padded_write hinside.2, ← h r k j hj, hset]
    exact m.getLsbD_words_set hinside.1 hinside.2 w.bit r.isLt k.isLt hj
  · rw [attempt_of_set?_eq_none (set?_eq_none_iff.mpr hinside), t.write_of_outside hinside]
    exact h

theorem Packs.foldl_attempt {m : BitMatrix rows columns} {t : BitTable rows columns}
    (h : m.Packs t) (ws : List BitWrite) :
    (ws.foldl BitMatrix.attempt m).Packs (ws.foldl BitTable.write t) := by
  induction ws generalizing m t with
  | nil => exact h
  | cons w ws ih => exact ih (h.attempt w)

/-- A table is packed in one way only. -/
theorem Packs.unique {m m' : BitMatrix rows columns} {t : BitTable rows columns} (h : m.Packs t)
    (h' : m'.Packs t) : m = m' := by
  rcases m with ⟨words⟩
  rcases m' with ⟨words'⟩
  congr 1
  ext r hr k hk j hj
  rw [← BitVec.getLsbD_eq_getElem, ← BitVec.getLsbD_eq_getElem]
  exact (h ⟨r, hr⟩ ⟨k, hk⟩ j hj).trans (h' ⟨r, hr⟩ ⟨k, hk⟩ j hj).symm

/-! ## Observations -/

theorem packedRow?_eq (m : BitMatrix rows columns) (r : Fin rows) :
    m.packedRow? r = some m.words[r].toList := by
  simp [packedRow?]

theorem exists_word (m : BitMatrix rows columns) (r : Fin rows) (c : Fin columns) :
    ∃ word, m.words[r].toList[c.val / 64]? = some word := by
  have hword := Word.index_lt_countFor c.isLt
  exact ⟨_, List.getElem?_eq_getElem (by rwa [Vector.length_toList])⟩

namespace Packs

variable {m : BitMatrix rows columns} {t : BitTable rows columns}

theorem bit (h : m.Packs t) (r : Fin rows) (c : Fin columns) : m.bit r c = t r c := by
  have hword := Word.index_lt_countFor c.isLt
  have hbit := h r ⟨c / 64, hword⟩ (c % 64) (Nat.mod_lt _ (by decide))
  rw [Nat.div_add_mod, t.padded_val] at hbit
  rw [BitMatrix.bit, dif_pos ⟨r.isLt, c.isLt⟩]
  exact hbit

theorem table_unique {t' : BitTable rows columns} (h : m.Packs t) (h' : m.Packs t') : t = t' := by
  funext r c
  rw [← h.bit, h'.bit]

theorem row (h : m.Packs t) (r : Fin rows) : m.row r = List.ofFn (t r) := by
  rw [BitMatrix.row, ← List.map_coe_finRange_eq_range, List.map_map, List.ofFn_eq_map]
  exact List.map_congr_left fun c _ => h.bit r c

theorem bits (h : m.Packs t) : m.bits = (List.ofFn fun r => List.ofFn (t r)).flatten := by
  rw [BitMatrix.bits, List.flatMap, ← List.map_coe_finRange_eq_range, List.map_map,
    List.ofFn_eq_map]
  exact congrArg List.flatten (List.map_congr_left fun r _ => h.row r)

theorem getLsbD_word (h : m.Packs t) {r : Fin rows} {k : Nat} {word : Word}
    (hword : m.words[r].toList[k]? = some word) {j : Nat} (hj : j < 64) :
    word.getLsbD j = t.padded r (64 * k + j) := by
  obtain ⟨hk, rfl⟩ := List.getElem?_eq_some_iff.mp hword
  rw [Vector.length_toList] at hk
  rw [Vector.getElem_toList]
  exact h r ⟨k, hk⟩ j hj

theorem rowIsZero? (h : m.Packs t) (r : Fin rows) :
    m.rowIsZero? r = some (decide (∀ c, t r c = false)) := by
  rw [BitMatrix.rowIsZero?, packedRow?_eq, Option.map_some, Option.some_inj, Bool.eq_iff_iff,
    List.all_eq_true, decide_eq_true_iff]
  constructor
  · intro hzero c
    obtain ⟨word, hword⟩ := exists_word m r c
    have hbit := h.getLsbD_word hword (Nat.mod_lt c.val (by decide))
    rw [Nat.div_add_mod, t.padded_val, beq_iff_eq.mp (hzero word (List.mem_of_getElem? hword)),
      BitVec.getLsbD_zero] at hbit
    exact hbit.symm
  · intro hzero word hmem
    obtain ⟨k, hword⟩ := List.mem_iff_getElem?.mp hmem
    apply beq_iff_eq.mpr
    ext j hj
    rw [← BitVec.getLsbD_eq_getElem, h.getLsbD_word hword hj, BitTable.padded_eq_false hzero]
    simp

end Packs

/-! ## Matrices that are written from zero -/

theorem set_eq_attempt (m : BitMatrix rows columns) (row column : Nat) (bit : Bool) :
    m.set row column bit = m.attempt ⟨row, column, bit⟩ := by
  unfold attempt set?
  split
  next => rfl
  next houtside => exact dif_neg houtside

theorem exists_packs_setAll (positions : List (Nat × Nat)) :
    ∃ t, ((zero rows columns).setAll positions).Packs t := by
  have hwrites := packs_zero.foldl_attempt (m := zero rows columns)
    (positions.map fun position => ⟨position.1, position.2, true⟩)
  rw [List.foldl_map] at hwrites
  simp only [setAll, set_eq_attempt]
  exact ⟨_, hwrites⟩

/-- Nothing but the bits tells two matrices apart that have been written from zero. -/
theorem setAll_eq_setAll {ps qs : List (Nat × Nat)}
    (h : ∀ r < rows, ∀ c < columns, ((zero rows columns).setAll ps).bit r c =
      ((zero rows columns).setAll qs).bit r c) :
    (zero rows columns).setAll ps = (zero rows columns).setAll qs := by
  obtain ⟨t, ht⟩ : ∃ t, ((zero rows columns).setAll ps).Packs t := exists_packs_setAll ps
  obtain ⟨t', ht'⟩ : ∃ t, ((zero rows columns).setAll qs).Packs t := exists_packs_setAll qs
  have htable : t = t' := by
    funext r c
    rw [← ht.bit, ← ht'.bit]
    exact h r r.isLt c c.isLt
  exact ht.unique (htable ▸ ht')

/-! ## Set bits -/

/-- Words that hold a sequence of bits have as many set bits as the sequence. -/
theorem foldl_ones {words : List Word} {p : Nat → Bool}
    (h : ∀ k word, words[k]? = some word → ∀ j < 64, word.getLsbD j = p (64 * k + j))
    (total : Nat) : words.foldl (fun total word => total + word.ones) total =
      total + (List.range (64 * words.length)).countP p := by
  induction words generalizing p total with
  | nil => simp
  | cons word words ih =>
      have hword : word.ones = (List.range 64).countP p := by
        refine List.countP_congr fun j hj => ?_
        rw [h 0 word rfl j (List.mem_range.mp hj), Nat.mul_zero, Nat.zero_add]
      -- The other words hold the sequence from its place 64 on.
      have hrest : ∀ k later, words[k]? = some later → ∀ j < 64,
          later.getLsbD j = p (64 + (64 * k + j)) := by
        intro k later hlater j hj
        rw [h (k + 1) later hlater j hj]
        congr 1
        omega
      rw [List.foldl_cons, ih (p := fun place => p (64 + place)) hrest, List.length_cons,
        Nat.mul_succ, Nat.add_comm (64 * _), List.range_add, List.countP_append, List.countP_map,
        hword, Nat.add_assoc]
      rfl

theorem countP_padded (t : BitTable rows columns) (r : Fin rows) {n : Nat} (hn : columns ≤ n) :
    (List.range n).countP (t.padded r) = (Finset.univ.filter fun c => t r c = true).card := by
  obtain ⟨d, rfl⟩ := Nat.exists_eq_add_of_le hn
  have hzero : ((List.range d).map (columns + ·)).countP (t.padded r) = 0 := by
    simp [List.countP_eq_zero, BitTable.padded_of_le]
  have hrow : t.padded r ∘ Fin.val = t r := by
    funext c
    exact t.padded_val r c
  rw [List.range_add, List.countP_append, hzero, Nat.add_zero, ← List.map_coe_finRange_eq_range,
    List.countP_map, hrow, List.countP_eq_length_filter,
    ← List.toFinset_card_of_nodup ((List.nodup_finRange columns).filter _), List.toFinset_filter,
    List.toFinset_finRange]

theorem Packs.ones {m : BitMatrix rows columns} {t : BitTable rows columns} (h : m.Packs t) :
    m.ones = (Finset.univ.filter fun p : Fin rows × Fin columns => t p.1 p.2 = true).card := by
  have hrows : m.words.toList = (List.finRange rows).map fun r => m.words[r] := by
    apply List.ext_getElem
    · simp
    · simp
  have hrow (total : Nat) (r : Fin rows) :
      m.words[r].toList.foldl (fun total word => total + word.ones) total =
        total + (Finset.univ.filter fun c => t r c = true).card := by
    -- All stored bits are counted, but only those of the columns can be set.
    have hlength : columns ≤ 64 * m.words[r].toList.length := by
      rw [Vector.length_toList, Word.countFor]
      omega
    rw [foldl_ones fun k word hword j hj => h.getLsbD_word hword hj, countP_padded t r hlength]
  calc m.ones
      = (List.finRange rows).foldl
          (fun total r => total + (Finset.univ.filter fun c => t r c = true).card) 0 := by
        simp only [BitMatrix.ones, List.foldl_flatMap, hrows, List.foldl_map, hrow]
    _ = ∑ r, (Finset.univ.filter fun c => t r c = true).card := by
        rw [Fin.sum_univ_def, List.sum_eq_foldl, List.foldl_map]
    _ = (Finset.univ.filter fun p : Fin rows × Fin columns => t p.1 p.2 = true).card := by
        simp only [Finset.card_filter, Fintype.sum_prod_type]

/-! ## Refinement -/

/-- What can be observed of the matrix, told by the table. -/
structure Shows (m : BitMatrix rows columns) (t : BitTable rows columns) : Prop where
  bit? : ∀ r c, m.bit? r.val c.val = some (t r c)
  bit?_outside : ∀ row column, ¬(row < rows ∧ column < columns) → m.bit? row column = none
  row : ∀ r, m.row r.val = List.ofFn (t r)
  rowText? : ∀ r, m.rowText? r.val =
    some (String.ofList ((List.ofFn (t r)).map fun bit => if bit then '1' else '0'))
  rowIsZero? : ∀ r, m.rowIsZero? r.val = some (decide (∀ c, t r c = false))
  /-- Column `c` is bit `c % 64` of word `c / 64`, and the bits behind the last column are zero. -/
  packedRow? : ∀ r, ∃ words, m.packedRow? r.val = some words ∧
    words.length = Word.countFor columns ∧
    (∀ c : Fin columns, ∃ word, words[c.val / 64]? = some word ∧
      word.getLsbD (c % 64) = t r c) ∧
    ∀ k word, words[k]? = some word → ∀ j < 64, columns ≤ 64 * k + j → word.getLsbD j = false
  row_outside : ∀ row, rows ≤ row →
    m.rowText? row = none ∧ m.rowIsZero? row = none ∧ m.packedRow? row = none
  bits : m.bits = (List.ofFn fun r => List.ofFn (t r)).flatten
  ones : m.ones = (Finset.univ.filter fun p : Fin rows × Fin columns => t p.1 p.2 = true).card

theorem Packs.shows {m : BitMatrix rows columns} {t : BitTable rows columns} (h : m.Packs t) :
    m.Shows t where
  bit? r c := by rw [BitMatrix.bit?, if_pos ⟨r.isLt, c.isLt⟩, h.bit]
  bit?_outside row column houtside := if_neg houtside
  row := h.row
  rowText? r := by
    rw [BitMatrix.rowText?, if_pos r.isLt, rowChars, h.row]
    rfl
  rowIsZero? := h.rowIsZero?
  packedRow? r := by
    refine ⟨_, packedRow?_eq m r, Vector.length_toList, ?_, ?_⟩
    · intro c
      obtain ⟨word, hword⟩ := exists_word m r c
      refine ⟨word, hword, ?_⟩
      rw [h.getLsbD_word hword (Nat.mod_lt _ (by decide)), Nat.div_add_mod, t.padded_val]
    · intro k word hword j hj hpadding
      rw [h.getLsbD_word hword hj, t.padded_of_le r hpadding]
  row_outside row hrow := by
    have hnone : m.packedRow? row = none := by
      simp [BitMatrix.packedRow?, hrow]
    refine ⟨if_neg (Nat.not_lt.mpr hrow), ?_, hnone⟩
    rw [BitMatrix.rowIsZero?, hnone, Option.map_none]
  bits := h.bits
  ones := h.ones

/-- A matrix that is written bit by bit, with writes outside that fail, shows the table that the
same writes lead to. Two such matrices are equal exactly if their tables are. -/
theorem attempts_refine_table (rows columns : Nat) :
    (∀ ws : List BitWrite, (ws.foldl attempt (zero rows columns)).Shows
      (ws.foldl BitTable.write (.zero rows columns))) ∧
    (∀ (m : BitMatrix rows columns) (w : BitWrite),
      (m.set? w.row w.column w.bit = none ↔ ¬(w.row < rows ∧ w.column < columns)) ∧
        (m.set? w.row w.column w.bit = none → m.attempt w = m)) ∧
    ∀ ws ws' : List BitWrite,
      (ws.foldl attempt (zero rows columns) == ws'.foldl attempt (zero rows columns)) = true ↔
        ws.foldl BitTable.write (.zero rows columns) =
          ws'.foldl BitTable.write (.zero rows columns) := by
  have hpacks (ws : List BitWrite) :=
    (packs_zero : (zero rows columns).Packs _).foldl_attempt ws
  refine ⟨fun ws => (hpacks ws).shows, fun m w => ⟨set?_eq_none_iff, attempt_of_set?_eq_none⟩, ?_⟩
  intro ws ws'
  rw [beq_iff_eq]
  constructor
  · intro heq
    exact (hpacks ws).table_unique (heq ▸ hpacks ws')
  · intro heq
    exact (hpacks ws).unique (heq ▸ hpacks ws')

/-- A bit is set at each end of two neighbouring words and cleared again in one of them. The writes
behind the columns and below the rows fail. -/
theorem attempts_refine_table_word_boundary :
    let ws : List BitWrite :=
      [⟨1, 63, true⟩, ⟨1, 64, true⟩, ⟨1, 70, true⟩, ⟨2, 0, true⟩, ⟨1, 63, false⟩]
    let m := ws.foldl attempt (zero 2 70)
    m.ones = 1 ∧ m.rowIsZero? 0 = some true ∧ m.bit? 1 64 = some true ∧
      (m == [⟨1, 64, true⟩].foldl attempt (zero 2 70)) = true := by
  intro ws m
  obtain ⟨hshows, -, hequal⟩ := attempts_refine_table 2 70
  have hm := hshows ws
  refine ⟨hm.ones.trans (by decide +kernel), ?_, ?_, ?_⟩
  · exact (hm.rowIsZero? 0).trans (by decide +kernel)
  · exact (hm.bit? 1 64).trans (by decide +kernel)
  · exact (hequal ws [⟨1, 64, true⟩]).mpr (by decide +kernel)

end BitMatrix

end ArrayLogic
