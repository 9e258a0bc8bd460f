import ArrayLogic.Proofs.BitMatrix
import ArrayLogic.Proofs.Traversal

/-! # Guarded access to packed matrices

The words of a matrix are stored one row behind the other. Guarded access fails for a position
outside the matrix, for a word outside the storage and for a number that overflows a machine word.
If the words of a matrix can be counted in a machine word, only the first of these happens: guarded
access fails outside the matrix, and inside it gives what is stored. A guarded write replaces the
one word that it has found.
-/

namespace ArrayLogic

/-- A number that is computed in a machine word. There is none if it overflows. -/
def Word.number? (n : Nat) : Option Nat :=
  if n < Nat.pow 2 64 then some n else none

theorem Word.number?_eq {n : Nat} (h : n < Nat.pow 2 64) : number? n = some n :=
  if_pos h

theorem Word.eq_of_number? {n number : Nat} (h : number? n = some number) : n = number := by
  unfold number? at h
  split at h
  · exact Option.some.inj h
  · simp at h

namespace BitMatrix

variable {rows columns : Nat}

/-! ## Storage -/

/-- The words of all rows, one row behind the other. -/
def storage (m : BitMatrix rows columns) : List Word :=
  (m.words.toList.map Vector.toList).flatten

/-- Places of later parts are behind the first part. -/
theorem place_succ {α : Type} {first : List α} {n : Nat} (h : first.length = n) (i k : Nat) :
    (i + 1) * n + k = first.length + (i * n + k) := by
  rw [Nat.succ_mul, h]
  omega

/-- Parts of the same length begin at its multiples. -/
theorem getElem?_flatten {α : Type} {parts : List (List α)} {n : Nat}
    (h : ∀ part ∈ parts, part.length = n) (i : Nat) {k : Nat} (hk : k < n) :
    parts.flatten[i * n + k]? = parts[i]?.bind (·[k]?) := by
  induction parts generalizing i with
  | nil => simp
  | cons part parts ih =>
      obtain ⟨hpart, hparts⟩ := List.forall_mem_cons.mp h
      rw [List.flatten_cons]
      cases i with
      | zero =>
          rw [Nat.zero_mul, Nat.zero_add, List.getElem?_append_left (hpart ▸ hk)]
          rfl
      | succ i =>
          rw [place_succ hpart, List.getElem?_append_right (Nat.le_add_right _ _),
            Nat.add_sub_cancel_left, ih hparts, List.getElem?_cons_succ]

/-- An entry of one part is one entry of the whole. -/
theorem flatten_set {α : Type} {parts : List (List α)} {n : Nat}
    (h : ∀ part ∈ parts, part.length = n) {i k : Nat} {part : List α} (hi : parts[i]? = some part)
    (hk : k < n) (a : α) :
    (parts.set i (part.set k a)).flatten = parts.flatten.set (i * n + k) a := by
  induction parts generalizing i with
  | nil => simp at hi
  | cons first parts ih =>
      obtain ⟨hfirst, hparts⟩ := List.forall_mem_cons.mp h
      cases i with
      | zero =>
          obtain rfl := Option.some.inj hi
          rw [List.set_cons_zero, List.flatten_cons, List.flatten_cons, Nat.zero_mul, Nat.zero_add,
            List.set_append_left _ _ (hfirst ▸ hk)]
      | succ i =>
          rw [List.set_cons_succ, List.flatten_cons, List.flatten_cons, ih hparts hi,
            place_succ hfirst, List.set_append_right _ _ (Nat.le_add_right _ _),
            Nat.add_sub_cancel_left]

theorem length_storage (m : BitMatrix rows columns) :
    m.storage.length = rows * Word.countFor columns := by
  have hlength : List.length ∘ Vector.toList =
      fun _ : Vector Word (Word.countFor columns) => Word.countFor columns := by
    funext words
    exact Vector.length_toList
  rw [storage, List.length_flatten, List.map_map, hlength, List.map_const', List.sum_replicate_nat,
    Vector.length_toList]

theorem length_of_mem_words {m : BitMatrix rows columns} {part : List Word}
    (h : part ∈ m.words.toList.map Vector.toList) : part.length = Word.countFor columns := by
  obtain ⟨words, -, rfl⟩ := List.mem_map.mp h
  exact Vector.length_toList

theorem getElem?_storage (m : BitMatrix rows columns) {row k : Nat} (hrow : row < rows)
    (hk : k < Word.countFor columns) :
    m.storage[row * Word.countFor columns + k]? = some m.words[row][k] := by
  rw [storage, getElem?_flatten (fun _ => length_of_mem_words) row hk]
  simp [hrow]

/-- A write changes the word with the bit at the position and no other. -/
theorem storage_set (m : BitMatrix rows columns) {row column : Nat} (hrow : row < rows)
    (hcolumn : column < columns) (bit : Bool) {word : Word}
    (hword : m.storage[row * Word.countFor columns + column / 64]? = some word) :
    (m.set row column bit).storage =
      m.storage.set (row * Word.countFor columns + column / 64)
        (word.setBit (column % 64) bit) := by
  have hindex := Word.index_lt_countFor hcolumn
  rw [m.getElem?_storage hrow hindex] at hword
  obtain rfl := Option.some.inj hword
  have hpart : (m.words.toList.map Vector.toList)[row]? = some m.words[row].toList := by
    simp [hrow]
  rw [storage, set, dif_pos ⟨hrow, hcolumn⟩, Vector.toList_set, List.map_set, Vector.toList_set,
    flatten_set (fun _ => length_of_mem_words) hpart hindex]
  rfl

/-- The words of a row follow each other in the storage. -/
theorem take_drop_storage (m : BitMatrix rows columns) {row : Nat} (hrow : row < rows) :
    (m.storage.drop (row * Word.countFor columns)).take (Word.countFor columns) =
      m.words[row].toList := by
  apply List.ext_getElem?
  intro k
  by_cases hk : k < Word.countFor columns
  · rw [List.getElem?_take_of_lt hk, List.getElem?_drop, m.getElem?_storage hrow hk,
      Vector.getElem?_toList, Vector.getElem?_eq_getElem hk]
  · rw [List.getElem?_take_eq_none (Nat.not_lt.mp hk), List.getElem?_eq_none]
    rw [Vector.length_toList]
    exact Nat.not_lt.mp hk

theorem rowEnd_le (columns : Nat) {row : Nat} (h : row < rows) :
    row * Word.countFor columns + Word.countFor columns ≤ rows * Word.countFor columns := by
  rw [← Nat.succ_mul]
  exact Nat.mul_le_mul_right _ h

/-! ## Guards -/

/-- The matrix without set bits, if its words can be counted. -/
def guardedZero (rows columns : Nat) : Option (BitMatrix rows columns) :=
  (Word.number? (rows * Word.countFor columns)).map fun _ => zero rows columns

/-- The stored word with the bit at a position. -/
def guardedWord (m : BitMatrix rows columns) (row column : Nat) : Option Word :=
  if row < rows ∧ column < columns then
    (Word.number? (row * Word.countFor columns + column / 64)).bind (m.storage[·]?)
  else none

def guardedBit (m : BitMatrix rows columns) (row column : Nat) : Option Bool :=
  (m.guardedWord row column).map (·.getLsbD (column % 64))

/-- The matrix with one more bit set. -/
def guardedSet (m : BitMatrix rows columns) (row column : Nat) : Option (BitMatrix rows columns) :=
  (m.guardedWord row column).map fun _ => m.set row column true

/-- The stored words of a row. -/
def guardedWords (m : BitMatrix rows columns) (row : Nat) : Option (List Word) :=
  if row < rows then do
    let start ← Word.number? (row * Word.countFor columns)
    guard (start + Word.countFor columns ≤ m.storage.length)
    return (m.storage.drop start).take (Word.countFor columns)
  else none

/-- The bits of a row, each from its word. -/
def guardedRow (m : BitMatrix rows columns) (row : Nat) : Option (List Bool) := do
  let words ← m.guardedWords row
  (List.range columns).mapM fun c => words[c / 64]?.map (·.getLsbD (c % 64))

/-- All bits, row by row. -/
def guardedBits (m : BitMatrix rows columns) : Option (List Bool) :=
  ((List.range rows).mapM m.guardedRow).map List.flatten

/-- The guarded write changes the word that it has found and no other. -/
theorem storage_of_guardedSet {m m' : BitMatrix rows columns} {row column : Nat}
    (h : m.guardedSet row column = some m') :
    ∃ word, m.guardedWord row column = some word ∧
      m'.storage = m.storage.set (row * Word.countFor columns + column / 64)
        (word.setBit (column % 64) true) := by
  obtain ⟨word, hword, rfl⟩ := Option.map_eq_some_iff.mp h
  refine ⟨word, hword, ?_⟩
  rw [guardedWord] at hword
  split at hword
  next hinside =>
    obtain ⟨place, hplace, hfound⟩ := Option.bind_eq_some_iff.mp hword
    obtain rfl := Word.eq_of_number? hplace
    exact m.storage_set hinside.1 hinside.2 true hfound
  next => simp at hword

section Inside

variable (hwords : rows * Word.countFor columns < Nat.pow 2 64)
include hwords

theorem guardedZero_eq : guardedZero rows columns = some (zero rows columns) := by
  rw [guardedZero, Word.number?_eq hwords, Option.map_some]

variable (m : BitMatrix rows columns)

/-- The word of a position is found in the storage and holds the bit. -/
theorem exists_guardedWord_eq {row column : Nat} (hrow : row < rows) (hcolumn : column < columns) :
    ∃ word, m.guardedWord row column = some word ∧
      word.getLsbD (column % 64) = m.bit row column := by
  have hword := Word.index_lt_countFor hcolumn
  have hplace : row * Word.countFor columns + column / 64 < Nat.pow 2 64 := by
    have hend := rowEnd_le columns hrow
    omega
  refine ⟨m.words[row][column / 64], ?_, ?_⟩
  · rw [guardedWord, if_pos ⟨hrow, hcolumn⟩, Word.number?_eq hplace, Option.bind_some]
    exact m.getElem?_storage hrow hword
  · rw [bit, dif_pos ⟨hrow, hcolumn⟩]

theorem guardedBit_eq (row column : Nat) : m.guardedBit row column = m.bit? row column := by
  rw [guardedBit, bit?]
  split
  next hinside =>
    obtain ⟨word, hword, hbit⟩ := exists_guardedWord_eq hwords m hinside.1 hinside.2
    rw [hword, Option.map_some, hbit]
  next houtside => rw [guardedWord, if_neg houtside, Option.map_none]

theorem guardedSet_eq (row column : Nat) :
    m.guardedSet row column = m.set? row column true := by
  rw [guardedSet, set?]
  split
  next hinside =>
    obtain ⟨word, hword, -⟩ := exists_guardedWord_eq hwords m hinside.1 hinside.2
    rw [hword, Option.map_some]
  next houtside => rw [guardedWord, if_neg houtside, Option.map_none]

theorem guardedWords_eq {row : Nat} (h : row < rows) :
    m.guardedWords row = some m.words[row].toList := by
  have hend := rowEnd_le columns h
  have hstart : row * Word.countFor columns < Nat.pow 2 64 := by omega
  rw [guardedWords, if_pos h, Word.number?_eq hstart, m.length_storage]
  simp only [Option.bind_eq_bind, Option.bind_some, guard, if_pos hend]
  exact congrArg some (m.take_drop_storage h)

theorem guardedRow_eq {row : Nat} (h : row < rows) : m.guardedRow row = some (m.row row) := by
  have hbits : ∀ c ∈ List.range columns,
      (m.words[row].toList)[c / 64]?.map (·.getLsbD (c % 64)) = some (m.bit row c) := by
    intro c hc
    have hcolumn := List.mem_range.mp hc
    have hword := Word.index_lt_countFor hcolumn
    rw [bit, dif_pos ⟨h, hcolumn⟩]
    simp [hword]
  rw [guardedRow, guardedWords_eq hwords m h]
  exact mapM_eq_some_map hbits

theorem guardedBits_eq : m.guardedBits = some m.bits := by
  rw [guardedBits, mapM_eq_some_map fun r hr => guardedRow_eq hwords m (List.mem_range.mp hr)]
  rfl

end Inside

end BitMatrix

end ArrayLogic
