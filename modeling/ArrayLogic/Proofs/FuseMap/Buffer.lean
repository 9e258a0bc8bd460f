import ArrayLogic.Proofs.FuseMap.Packing

/-! # Byte buffers

Bits can be packed by writing them one after another into a buffer of zeros. A bit behind the buffer
cannot be written. In a buffer with room for all bits this never happens, and in the end the buffer
holds the packed bits.
-/

namespace ArrayLogic.Byte

theorem unpack_cons (byte : Byte) (bytes : List Byte) :
    unpack (byte :: bytes) = byte.bits ++ unpack bytes :=
  List.flatMap_cons

@[simp] theorem length_unpack (bytes : List Byte) : (unpack bytes).length = 8 * bytes.length := by
  induction bytes with
  | nil => rfl
  | cons byte bytes ih =>
      rw [unpack_cons, List.length_append, length_bits, ih, List.length_cons]
      omega

theorem eq_of_bits_eq {a b : Byte} (h : a.bits = b.bits) : a = b := by
  apply BitVec.eq_of_getMsbD_eq
  intro i hi
  have hbit := congrArg (·[i]?) h
  simp only [getElem?_bits _ hi] at hbit
  exact Option.some.inj hbit

theorem eq_of_unpack_eq {a b : List Byte} (h : unpack a = unpack b) : a = b := by
  induction a generalizing b with
  | nil =>
      have hlength := congrArg List.length h
      simp only [length_unpack, List.length_nil] at hlength
      exact (List.length_eq_zero_iff.mp (by omega)).symm
  | cons x a ih =>
      cases b with
      | nil =>
          have hlength := congrArg List.length h
          simp at hlength
      | cons y b =>
          rw [unpack_cons, unpack_cons] at h
          obtain ⟨hbits, hrest⟩ := List.append_inj h (by simp)
          rw [eq_of_bits_eq hbits, ih hrest]

/-! ## Writing -/

/-- The buffer with one more bit set, if there is a byte for it. -/
def guardedSet (buffer : List Byte) (place : Nat) : Option (List Byte) :=
  buffer[place / 8]?.map fun byte => buffer.set (place / 8) (byte ||| 0x80#8 >>> (place % 8))

/-- Writes a bit at its place. Zeros are there already. -/
def guardedWrite (buffer : List Byte) (bit : Bool × Nat) : Option (List Byte) :=
  if bit.1 then guardedSet buffer bit.2 else some buffer

/-- Writes bits into a buffer that has as many bytes as the given number of bits needs. -/
def guardedPack (size : Nat) (bits : List Bool) : Option (List Byte) :=
  bits.zipIdx.foldlM guardedWrite (List.replicate ((size + 7) / 8) 0#8)

/-- Setting a bit of a buffer changes one of the bits that it holds. -/
theorem exists_guardedSet_eq {buffer : List Byte} {place : Nat} (h : place < 8 * buffer.length) :
    ∃ next, guardedSet buffer place = some next ∧ unpack next = (unpack buffer).set place true := by
  have hbyte : place / 8 < buffer.length := by omega
  rw [guardedSet, List.getElem?_eq_getElem hbyte, Option.map_some]
  refine ⟨_, rfl, List.ext_getElem? ?_⟩
  intro i
  rw [getElem?_unpack, List.getElem?_set, List.getElem?_set, getElem?_unpack, length_unpack]
  by_cases hsame : place / 8 = i / 8
  · have hi : i % 8 < 8 := Nat.mod_lt i (by decide)
    have hplace : place % 8 = i % 8 ↔ place = i := by omega
    rw [if_pos hsame, if_pos hbyte, Option.map_some, BitVec.getMsbD_or, getMsbD_mask _ hi]
    by_cases heq : place = i
    · simp [heq, heq ▸ h]
    · rw [if_neg heq, ← hsame, List.getElem?_eq_getElem hbyte]
      simp [hplace, heq]
  · have hne : place ≠ i := by
      rintro rfl
      exact hsame rfl
    rw [if_neg hsame, if_neg hne]

/-- A bit is written over the zero at its place. -/
theorem exists_guardedWrite_eq {buffer : List Byte} {front back : List Bool}
    (h : unpack buffer = front ++ false :: back) (bit : Bool) :
    ∃ next, guardedWrite buffer (bit, front.length) = some next ∧
      unpack next = front ++ bit :: back := by
  cases bit with
  | false => exact ⟨buffer, rfl, h⟩
  | true =>
      have hplace : front.length < 8 * buffer.length := by
        rw [← length_unpack, h, List.length_append, List.length_cons]
        omega
      obtain ⟨next, hnext, hset⟩ := exists_guardedSet_eq hplace
      refine ⟨next, hnext, ?_⟩
      rw [hset, h, List.set_append_right _ _ (Nat.le_refl _), Nat.sub_self, List.set_cons_zero]

/-- While bits are written, the buffer holds those that are already written and zeros. -/
theorem exists_foldlM_guardedWrite_eq (bits front : List Bool) (room : Nat) {buffer : List Byte}
    (h : unpack buffer = front ++ List.replicate (bits.length + room) false) :
    ∃ next, (bits.zipIdx front.length).foldlM guardedWrite buffer = some next ∧
      unpack next = front ++ bits ++ List.replicate room false := by
  induction bits generalizing front buffer with
  | nil => exact ⟨buffer, rfl, by simpa using h⟩
  | cons bit bits ih =>
      rw [List.length_cons, Nat.add_right_comm, List.replicate_succ] at h
      obtain ⟨written, hwritten, hbit⟩ := exists_guardedWrite_eq h bit
      obtain ⟨next, hnext, hbits⟩ := ih (front ++ [bit]) (by simpa using hbit)
      refine ⟨next, ?_, by simpa using hbits⟩
      rw [List.zipIdx_cons, List.foldlM_cons, hwritten]
      simpa using hnext

theorem unpack_replicate_zero (n : Nat) :
    unpack (List.replicate n 0#8) = List.replicate (8 * n) false := by
  have hzero : bits 0#8 = List.replicate 8 false := by decide
  induction n with
  | zero => rfl
  | succ n ih =>
      rw [List.replicate_succ, unpack_cons, ih, hzero, List.replicate_append_replicate,
        Nat.mul_succ, Nat.add_comm]

theorem guardedPack_eq (bits : List Bool) : guardedPack bits.length bits = some (pack bits) := by
  have hroom : 8 * ((bits.length + 7) / 8) =
      bits.length + (8 * (pack bits).length - bits.length) := by
    rw [length_pack]
    omega
  have hzeros := unpack_replicate_zero ((bits.length + 7) / 8)
  rw [hroom] at hzeros
  obtain ⟨next, hnext, hbits⟩ := exists_foldlM_guardedWrite_eq bits [] _ hzeros
  rw [List.nil_append, ← unpack_pack] at hbits
  rw [guardedPack, ← eq_of_unpack_eq hbits]
  exact hnext

end ArrayLogic.Byte
