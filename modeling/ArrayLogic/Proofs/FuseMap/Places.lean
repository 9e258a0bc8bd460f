import ArrayLogic.Proofs.FuseMap.Assembly
import Mathlib.Logic.ExistsUnique

/-! # Places of fuses

The flat configuration can be listed, or read at one place, with the same bits. Every place belongs
to exactly one fuse of one of the planes, which the offsets name. Devices that lack inputs, terms or
outputs are no exception: without terms there is no place to be read.
-/

namespace ArrayLogic

namespace BitMatrix

variable {rows columns : Nat}

theorem flatMap_row (m : BitMatrix rows columns) (n : Nat) :
    (List.range n).flatMap m.row =
      (List.range (n * columns)).map fun i => m.bit (i / columns) (i % columns) := by
  induction n with
  | zero => simp
  | succ n ih =>
      have hrow : m.row n = (List.range columns).map
          fun j => m.bit ((n * columns + j) / columns) ((n * columns + j) % columns) := by
        refine List.map_congr_left fun j hj => ?_
        rw [Nat.mul_comm, FuseMap.place_div (List.mem_range.mp hj),
          FuseMap.place_mod (List.mem_range.mp hj)]
      rw [List.range_succ, List.flatMap_append, List.flatMap_singleton, ih, Nat.succ_mul,
        List.range_add, List.map_append, List.map_map, hrow]
      rfl

/-- Without columns there is no position, as the remainder is not below zero. -/
theorem position_lt_iff {i : Nat} :
    i / columns < rows ∧ i % columns < columns ↔ i < rows * columns := by
  rcases Nat.eq_zero_or_pos columns with rfl | hpos
  · simp
  · rw [Nat.div_lt_iff_lt_mul hpos, and_iff_left (Nat.mod_lt i hpos)]

theorem getElem?_bits (m : BitMatrix rows columns) (i : Nat) :
    m.bits[i]? = m.bit? (i / columns) (i % columns) := by
  rw [bits, flatMap_row, bit?, List.getElem?_map]
  by_cases hi : i < rows * columns
  · rw [List.getElem?_range hi, if_pos (position_lt_iff.mpr hi), Option.map_some]
  · rw [List.getElem?_eq_none (by simpa using hi), if_neg (mt position_lt_iff.mp hi),
      Option.map_none]

end BitMatrix

/-- A fuse of one of the planes. -/
inductive Fuse (g : Geometry) where
  | and (row : Fin g.andRows) (term : Fin g.terms)
  | or (output : Fin g.outputs) (term : Fin g.terms)
deriving DecidableEq, Repr

namespace Fuse

variable {g : Geometry}

/-- The place in the flat configuration. -/
def place : Fuse g → Nat
  | and row term => g.andOffset row term
  | or output term => g.orOffset output term

theorem place_lt (x : Fuse g) : x.place < g.bitCount := by
  cases x with
  | and row term =>
      exact Nat.lt_of_lt_of_le (FuseMap.andOffset_lt row.isLt term.isLt) (Nat.le_add_right _ _)
  | or output term => exact FuseMap.orOffset_lt output.isLt term.isLt

theorem place_and_ne_place_or (row : Fin g.andRows) (output : Fin g.outputs)
    (k l : Fin g.terms) : (and row k).place ≠ (or output l).place := by
  have hand : (and row k).place < g.andBits := FuseMap.andOffset_lt row.isLt k.isLt
  have hor : (or output l).place = g.andBits + (g.terms * output + l) := FuseMap.orOffset_eq _ _
  omega

/-- Row and column of a place are its quotient and its remainder. -/
theorem eq_and_eq_of_place_eq {columns row row' : Nat} {k l : Fin columns}
    (h : columns * row + k = columns * row' + l) : row = row' ∧ k = l := by
  have hdiv := congrArg (· / columns) h
  have hmod := congrArg (· % columns) h
  simp only [FuseMap.place_div k.isLt, FuseMap.place_div l.isLt] at hdiv
  simp only [FuseMap.place_mod k.isLt, FuseMap.place_mod l.isLt] at hmod
  exact ⟨hdiv, Fin.ext hmod⟩

theorem place_inj {x y : Fuse g} (h : x.place = y.place) : x = y := by
  cases x with
  | and row k =>
      cases y with
      | and row' l =>
          obtain ⟨hrow, rfl⟩ := eq_and_eq_of_place_eq h
          rw [Fin.ext hrow]
      | or output l => exact absurd h (place_and_ne_place_or row output k l)
  | or output k =>
      cases y with
      | and row l => exact absurd h.symm (place_and_ne_place_or row output l k)
      | or output' l =>
          simp only [place, FuseMap.orOffset_eq] at h
          obtain ⟨houtput, rfl⟩ := eq_and_eq_of_place_eq (Nat.add_left_cancel h)
          rw [Fin.ext houtput]

theorem exists_place_eq {i : Nat} (h : i < g.bitCount) : ∃ x : Fuse g, x.place = i := by
  by_cases hand : i < g.andBits
  · obtain ⟨hrow, hterm⟩ := BitMatrix.position_lt_iff.mpr hand
    exact ⟨and ⟨i / g.terms, hrow⟩ ⟨i % g.terms, hterm⟩, Nat.div_add_mod i g.terms⟩
  · have hor : i - g.andBits < g.outputs * g.terms := by
      rw [Geometry.bitCount, Geometry.orBits, Nat.mul_comm g.terms] at h
      omega
    obtain ⟨houtput, hterm⟩ := BitMatrix.position_lt_iff.mpr hor
    refine ⟨or ⟨(i - g.andBits) / g.terms, houtput⟩ ⟨(i - g.andBits) % g.terms, hterm⟩, ?_⟩
    rw [place, FuseMap.orOffset_eq, Nat.div_add_mod]
    omega

theorem terms_pos (x : Fuse g) : 0 < g.terms := by
  cases x with
  | and row term => exact term.pos
  | or output term => exact term.pos

end Fuse

namespace FuseMap

variable {g : Geometry}

/-- Whether a fuse is set in its plane. -/
def fuse (f : FuseMap g) : Fuse g → Bool
  | .and row term => f.andPlane.bit row term
  | .or output term => f.orPlane.bit output term

theorem bit?_place (f : FuseMap g) (x : Fuse g) : f.bit? x.place = some (f.fuse x) := by
  cases x with
  | and row term => exact f.bit?_andOffset row.isLt term.isLt
  | or output term => exact f.bit?_orOffset output.isLt term.isLt

/-- Reading at a place gives the bit that is listed there. -/
theorem getElem?_bits (f : FuseMap g) (i : Nat) : f.bits[i]? = f.bit? i := by
  have hlength : f.andPlane.bits.length = g.andBits := f.andPlane.length_bits
  rw [bits, List.getElem?_append, hlength, bit?]
  split
  · exact f.andPlane.getElem?_bits i
  next hand =>
    split
    · exact f.orPlane.getElem?_bits _
    next hlt =>
      -- Behind both planes neither way finds a bit.
      apply List.getElem?_eq_none
      rw [f.orPlane.length_bits, Nat.mul_comm]
      exact Nat.le_sub_of_add_le' (Nat.not_lt.mp hlt)

/-- The flat configuration is as long as its device says. The bit that is read at a place is the one
that is listed there, and the one of the only fuse that has this place. Where a bit is read, the
device has terms, by whose number places are divided. -/
theorem bits_eq_fuses (f : FuseMap g) :
    f.bits.length = g.bitCount ∧ (∀ i, f.bits[i]? = f.bit? i) ∧
      (∀ i, (f.bit? i).isSome = true ↔ i < f.size) ∧
      (∀ i < f.size, 0 < g.terms ∧ ∃! x : Fuse g, x.place = i) ∧
      ∀ x : Fuse g, x.place < f.size ∧ f.bit? x.place = some (f.fuse x) := by
  refine ⟨f.length_bits, f.getElem?_bits, ?_, ?_, fun x => ⟨x.place_lt, f.bit?_place x⟩⟩
  · intro i
    rw [← f.getElem?_bits, isSome_getElem?, f.length_bits]
  · intro i hi
    obtain ⟨x, rfl⟩ := Fuse.exists_place_eq hi
    exact ⟨x.terms_pos, x, rfl, fun y hy => Fuse.place_inj hy⟩

/-- Behind two rows of seventy columns, the first place is that of the first output. Its fuse is
programmed, and so is the first one of the second row, for the complement. A device without inputs
has OR fuses only, and one without terms has no fuses. -/
theorem bits_eq_fuses_degenerate :
    let a : Literal := (Signal.ofIndex 0).literal .complement
    ∃ (wide : FuseMap ⟨1, 70, 1⟩) (bare : FuseMap ⟨0, 3, 2⟩) (blank : FuseMap ⟨2, 0, 2⟩),
      assemble _ [[⟨[a]⟩]] = .ok wide ∧ wide.bit? 140 = some (wide.orPlane.bit 0 0) ∧
      (∃! x : Fuse ⟨1, 70, 1⟩, x.place = 140) ∧
      wide.bit? 140 = some true ∧ wide.bit? 70 = some true ∧ wide.bit? 0 = some false ∧
      assemble _ [[], [⟨[]⟩]] = .ok bare ∧ bare.bit? 5 = some (bare.orPlane.bit 1 2) ∧
      bare.bit? 3 = some true ∧ bare.bit? 5 = some false ∧
      assemble _ [[]] = .ok blank ∧ blank.bits.length = 0 := by
  intro a
  have hwide : assemble ⟨1, 70, 1⟩ [[⟨[a]⟩]] =
      .ok (ofPool ⟨1, 70, 1⟩ (.ofOutputs [[⟨[a]⟩]]) [[⟨[a]⟩]]) := by decide +kernel
  have hbare : assemble ⟨0, 3, 2⟩ [[], [⟨[]⟩]] =
      .ok (ofPool ⟨0, 3, 2⟩ (.ofOutputs [[], [⟨[]⟩]]) [[], [⟨[]⟩]]) := by decide +kernel
  have hblank : assemble ⟨2, 0, 2⟩ [[]] = .ok (ofPool ⟨2, 0, 2⟩ (.ofOutputs [[]]) [[]]) := by
    decide +kernel
  obtain ⟨-, -, -, hunique, hfuse⟩ :=
    bits_eq_fuses (ofPool ⟨1, 70, 1⟩ (.ofOutputs [[⟨[a]⟩]]) [[⟨[a]⟩]])
  obtain ⟨-, -, -, -, hfuse'⟩ :=
    bits_eq_fuses (ofPool ⟨0, 3, 2⟩ (.ofOutputs [[], [⟨[]⟩]]) [[], [⟨[]⟩]])
  refine ⟨_, _, _, hwide, (hfuse (.or 0 0)).2, (hunique 140 (by decide)).2,
    (hfuse (.or 0 0)).2.trans ?_, (hfuse (.and ⟨1, by decide⟩ 0)).2.trans ?_,
    (hfuse (.and ⟨0, by decide⟩ 0)).2.trans ?_, hbare, (hfuse' (.or 1 2)).2,
    (hfuse' (.or 1 0)).2.trans ?_, (hfuse' (.or 1 2)).2.trans ?_, hblank, (bits_eq_fuses _).1⟩
  all_goals decide +kernel

end FuseMap

end ArrayLogic
