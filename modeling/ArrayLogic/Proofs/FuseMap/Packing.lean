import ArrayLogic.FuseMap.Encoding
import ArrayLogic.Proofs.FuseMap.Places
import Mathlib.Algebra.Order.Floor.Div

/-! # Packed configurations

Bytes list their bits from the most significant one down. Unpacking what was packed gives the bits
back, followed by zeros up to the end of the last byte. The bytes therefore determine every bit of a
configuration whose length is known.
-/

namespace ArrayLogic

namespace Byte

/-- The bits of a byte, most significant first. -/
def bits (byte : Byte) : List Bool :=
  (List.range 8).map byte.getMsbD

@[simp] theorem length_bits (byte : Byte) : byte.bits.length = 8 := by
  simp [bits]

theorem getElem?_bits (byte : Byte) {i : Nat} (h : i < 8) :
    byte.bits[i]? = some (byte.getMsbD i) := by
  rw [bits, List.getElem?_map, List.getElem?_range h, Option.map_some]

/-- Lists the bits of all bytes. -/
def unpack (bytes : List Byte) : List Bool :=
  bytes.flatMap bits

theorem getElem?_unpack (bytes : List Byte) (i : Nat) :
    (unpack bytes)[i]? = bytes[i / 8]?.map (·.getMsbD (i % 8)) := by
  induction bytes generalizing i with
  | nil => simp [unpack]
  | cons byte rest ih =>
      rw [unpack, List.flatMap_cons, List.getElem?_append, length_bits]
      split
      next hlt =>
        rw [byte.getElem?_bits hlt, Nat.div_eq_of_lt hlt, Nat.mod_eq_of_lt hlt]
        rfl
      next hge =>
        -- Behind the first byte, places count from its end.
        have hdiv : i / 8 = (i - 8) / 8 + 1 := by omega
        have hmod : i % 8 = (i - 8) % 8 := by omega
        rw [hdiv, hmod, List.getElem?_cons_succ]
        exact ih (i - 8)

theorem getElem?_pack {bits : List Bool} {k : Nat} (h : k < (bits.length + 7) / 8) :
    (pack bits)[k]? = some (ofBits fun j => bits.getD (8 * k + j) false) := by
  simp [pack, List.getElem?_range h]

/-- Packed bits are followed by zeros up to the end of the last byte. -/
theorem unpack_pack (bits : List Bool) : unpack (pack bits) =
    bits ++ List.replicate (8 * (pack bits).length - bits.length) false := by
  apply List.ext_getElem?
  intro i
  rw [getElem?_unpack, length_pack]
  by_cases hinside : i / 8 < (bits.length + 7) / 8
  · rw [getElem?_pack hinside, Option.map_some, getMsbD_ofBits _ (Nat.mod_lt i (by decide)),
      Nat.div_add_mod, List.getD_eq_getElem?_getD]
    by_cases hbit : i < bits.length
    · rw [List.getElem?_append_left hbit, List.getElem?_eq_getElem hbit]
      rfl
    · have hpad : i - bits.length < 8 * ((bits.length + 7) / 8) - bits.length := by omega
      rw [List.getElem?_append_right (by omega), List.getElem?_replicate, if_pos hpad,
        List.getElem?_eq_none (by omega)]
      rfl
  · rw [List.getElem?_eq_none (by simpa using hinside), List.getElem?_eq_none]
    · rfl
    · rw [List.length_append, List.length_replicate]
      omega

theorem getMsbD_eq_getLsbD (byte : Byte) (i : Nat) :
    byte.getMsbD (i % 8) = byte.getLsbD (7 - i % 8) := by
  have hlt : i % 8 < 8 := Nat.mod_lt i (by decide)
  simp [BitVec.getMsbD_eq_getLsbD, hlt]

end Byte

namespace FuseMap

variable {g : Geometry}

theorem length_bytes (f : FuseMap g) : f.bytes.length = f.size ⌈/⌉ 8 := by
  rw [bytes, Byte.length_pack, length_bits, Nat.ceilDiv_eq_add_pred_div]
  rfl

theorem unpack_bytes (f : FuseMap g) : Byte.unpack f.bytes =
    f.bits ++ List.replicate (8 * f.bytes.length - f.size) false := by
  rw [← length_bits]
  exact Byte.unpack_pack f.bits

/-- Knowing the length, the configuration is found in the bytes. -/
theorem take_unpack_bytes (f : FuseMap g) : (Byte.unpack f.bytes).take f.size = f.bits := by
  rw [unpack_bytes, List.take_left' f.length_bits]

theorem exists_getElem?_bytes (f : FuseMap g) {i : Nat} {bit : Bool}
    (h : (Byte.unpack f.bytes)[i]? = some bit) :
    ∃ byte, f.bytes[i / 8]? = some byte ∧ byte.getLsbD (7 - i % 8) = bit := by
  rw [Byte.getElem?_unpack] at h
  obtain ⟨byte, hbyte, hbit⟩ := Option.map_eq_some_iff.mp h
  exact ⟨byte, hbyte, byte.getMsbD_eq_getLsbD i ▸ hbit⟩

/-- Every bit of a configuration has its place in one of the bytes, the places behind the last bit
hold zeros, and there is no byte more than needed. So the bytes determine the configuration. -/
theorem bytes_hold_bits (f : FuseMap g) :
    f.bytes.length = f.size ⌈/⌉ 8 ∧
      (∀ i < f.size, ∃ byte, f.bytes[i / 8]? = some byte ∧
        f.bit? i = some (byte.getLsbD (7 - i % 8))) ∧
      (∀ i, f.size ≤ i → i < 8 * f.bytes.length → ∃ byte, f.bytes[i / 8]? = some byte ∧
        byte.getLsbD (7 - i % 8) = false) ∧
      (Byte.unpack f.bytes).take f.size = f.bits ∧
      ∀ f' : FuseMap g, f.bytes = f'.bytes ↔ f.bits = f'.bits := by
  refine ⟨f.length_bytes, ?_, ?_, f.take_unpack_bytes, ?_⟩
  · intro i hi
    have hlt : i < f.bits.length := f.length_bits ▸ hi
    have hplace : (Byte.unpack f.bytes)[i]? = some f.bits[i] := by
      rw [unpack_bytes, List.getElem?_append_left hlt, List.getElem?_eq_getElem hlt]
    obtain ⟨byte, hbyte, hbit⟩ := f.exists_getElem?_bytes hplace
    refine ⟨byte, hbyte, ?_⟩
    rw [← f.getElem?_bits, List.getElem?_eq_getElem hlt, hbit]
  · intro i hsize hi
    apply f.exists_getElem?_bytes
    have hpad : i - f.size < 8 * f.bytes.length - f.size := by omega
    rw [unpack_bytes, List.getElem?_append_right (f.length_bits ▸ hsize), length_bits,
      List.getElem?_replicate, if_pos hpad]
  · intro f'
    constructor
    · intro hbytes
      rw [← f.take_unpack_bytes, ← f'.take_unpack_bytes, hbytes]
      rfl
    · exact congrArg Byte.pack

/-- Eighteen bits take three bytes, and the last byte holds two of them. -/
theorem bytes_hold_bits_padded :
    let a : Literal := (Signal.ofIndex 0).literal .complement
    let b : Literal := (Signal.ofIndex 1).literal .direct
    let g : Geometry := ⟨2, 3, 2⟩
    let outputs : List (List Term) := [[⟨[a, b]⟩], [⟨[b]⟩, ⟨[a, b]⟩]]
    ∃ f : FuseMap g, assemble g outputs = .ok f ∧ f.size = 18 ∧
      f.bytes.length = 3 ∧ f.bytes = [0x13#8, 0x09#8, 0x80#8] ∧
      (∃ byte, f.bytes[2]? = some byte ∧ f.bit? 16 = some (byte.getLsbD 7)) ∧
      (∃ byte, f.bytes[2]? = some byte ∧ byte.getLsbD 5 = false) ∧
      (Byte.unpack f.bytes).take 18 = f.bits := by
  intro a b g outputs
  have hassemble : assemble g outputs = .ok (ofPool g (.ofOutputs outputs) outputs) := by
    decide +kernel
  obtain ⟨hlength, hbit, hpad, htake, -⟩ := bytes_hold_bits (ofPool g (.ofOutputs outputs) outputs)
  exact ⟨_, hassemble, rfl, hlength.trans (by decide), by decide +kernel, hbit 16 (by decide),
    hpad 18 (by decide) (by decide), htake⟩

end FuseMap

end ArrayLogic
