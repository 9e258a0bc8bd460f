import ArrayLogic.Proofs.Cube
import ArrayLogic.Proofs.TermPool

/-! # Assembled fuse maps

Assembly succeeds if the outputs and literals exist in the device and the pool has enough columns.
In the flat configuration of an assembled fuse map, a fuse is set exactly if the pool has it.
-/

namespace ArrayLogic

namespace FuseMap

variable {g : Geometry}

/-! ## Places of the flat configuration -/

theorem place_lt {rows columns row column : Nat} (hrow : row < rows) (hcolumn : column < columns) :
    columns * row + column < columns * rows :=
  calc columns * row + column
      < columns * row + columns := Nat.add_lt_add_left hcolumn _
    _ = columns * (row + 1) := (Nat.mul_succ columns row).symm
    _ ≤ columns * rows := Nat.mul_le_mul_left columns hrow

theorem place_div {columns column : Nat} (hcolumn : column < columns) (row : Nat) :
    (columns * row + column) / columns = row := by
  rw [Nat.mul_add_div (Nat.zero_lt_of_lt hcolumn), Nat.div_eq_of_lt hcolumn, Nat.add_zero]

theorem place_mod {columns column : Nat} (hcolumn : column < columns) (row : Nat) :
    (columns * row + column) % columns = column := by
  rw [Nat.mul_add_mod, Nat.mod_eq_of_lt hcolumn]

theorem andOffset_lt {row term : Nat} (hrow : row < g.andRows) (hterm : term < g.terms) :
    g.andOffset row term < g.andBits := by
  rw [Geometry.andBits, Nat.mul_comm]
  exact place_lt hrow hterm

theorem orOffset_eq (output term : Nat) :
    g.orOffset output term = g.andBits + (g.terms * output + term) :=
  Nat.add_assoc _ _ _

theorem orOffset_lt {output term : Nat} (houtput : output < g.outputs) (hterm : term < g.terms) :
    g.orOffset output term < g.bitCount := by
  rw [orOffset_eq]
  exact Nat.add_lt_add_left (place_lt houtput hterm) _

theorem bit?_andOffset (f : FuseMap g) {row term : Nat} (hrow : row < g.andRows)
    (hterm : term < g.terms) :
    f.bit? (g.andOffset row term) = some (f.andPlane.bit row term) := by
  rw [bit?, if_pos (andOffset_lt hrow hterm), Geometry.andOffset, place_div hterm, place_mod hterm,
    BitMatrix.bit?, if_pos ⟨hrow, hterm⟩]

theorem bit?_orOffset (f : FuseMap g) {output term : Nat} (houtput : output < g.outputs)
    (hterm : term < g.terms) :
    f.bit? (g.orOffset output term) = some (f.orPlane.bit output term) := by
  have hbehind : ¬g.orOffset output term < g.andBits := by
    rw [orOffset_eq]
    exact Nat.not_lt.mpr (Nat.le_add_right _ _)
  rw [bit?, if_neg hbehind, if_pos (orOffset_lt houtput hterm), orOffset_eq,
    Nat.add_sub_cancel_left, place_div hterm, place_mod hterm, BitMatrix.bit?,
    if_pos ⟨houtput, hterm⟩]

/-! ## Assembly -/

/-- The outputs and the literals exist in the device. -/
structure Fits (g : Geometry) (outputs : List (List Term)) : Prop where
  length_le : outputs.length ≤ g.outputs
  index_lt : ∀ terms ∈ outputs, ∀ t ∈ terms, ∀ l ∈ t.literals, l.index < g.inputs

theorem find?_literals_eq_none_iff {outputs : List (List Term)} {inputs : Nat} :
    ((TermPool.ofOutputs outputs).literals.find? fun l => inputs ≤ l.index) = none ↔
      ∀ terms ∈ outputs, ∀ t ∈ terms, ∀ l ∈ t.literals, l.index < inputs := by
  simp only [TermPool.literals, List.find?_eq_none, List.mem_flatMap, TermPool.mem_ofOutputs,
    decide_eq_true_eq, Nat.not_le]
  constructor
  · intro h terms hterms t ht l hl
    exact h l ⟨t, ⟨terms, hterms, ht⟩, hl⟩
  · intro h l hparts
    obtain ⟨t, ⟨terms, hterms, ht⟩, hl⟩ := hparts
    exact h terms hterms t ht l hl

theorem assemble_eq_ok_iff {outputs : List (List Term)} {f : FuseMap g} :
    assemble g outputs = .ok f ↔ Fits g outputs ∧
      (TermPool.ofOutputs outputs).size ≤ g.terms ∧ f = ofPool g (.ofOutputs outputs) outputs := by
  simp only [assemble, TermPool.checkCapacity]
  -- The cases follow the order in which the conditions are checked.
  by_cases hmany : g.outputs < outputs.length
  · have hnot : ¬Fits g outputs := fun hfits => Nat.not_le.mpr hmany hfits.length_le
    simp [hmany, hnot]
  by_cases hcapacity : g.terms < (TermPool.ofOutputs outputs).size
  · simp [hmany, hcapacity]
  simp only [hmany, hcapacity, ↓reduceIte]
  split
  next l hfind =>
    have hnot : ¬Fits g outputs := by
      intro hfits
      rw [find?_literals_eq_none_iff.mpr hfits.index_lt] at hfind
      simp at hfind
    simp [hnot]
  next hfind =>
    have hfits : Fits g outputs :=
      ⟨Nat.not_lt.mp hmany, find?_literals_eq_none_iff.mp hfind⟩
    simp [hfits, Nat.not_lt.mp hcapacity, eq_comm]

theorem assemble_of_capacity_lt {outputs : List (List Term)} (houtputs : outputs.length ≤ g.outputs)
    (hcapacity : g.terms < (TermPool.ofOutputs outputs).size) :
    assemble g outputs =
      .error (.capacityExceeded (TermPool.ofOutputs outputs).size g.terms) := by
  simp only [assemble, TermPool.checkCapacity, if_neg (Nat.not_lt.mpr houtputs), if_pos hcapacity]

/-! ## Fuses -/

section Fuses

variable {outputs : List (List Term)}

theorem Fits.andFuses_inside (h : Fits g outputs)
    (hcapacity : (TermPool.ofOutputs outputs).size ≤ g.terms) :
    ∀ position ∈ (TermPool.ofOutputs outputs).andFuses,
      position.1 < g.andRows ∧ position.2 < g.terms := by
  intro position hposition
  obtain ⟨row, column⟩ := position
  obtain ⟨t, ht, l, hl, hrow⟩ := TermPool.mem_andFuses.mp hposition
  obtain ⟨terms, hterms, hmem⟩ := TermPool.mem_ofOutputs.mp (List.mem_of_getElem? ht)
  have hindex := h.index_lt terms hterms t hmem l hl
  have hcode := l.code_div_two
  constructor
  · change row < 2 * g.inputs
    omega
  · exact Nat.lt_of_lt_of_le (TermPool.lt_size_of_term? ht) hcapacity

theorem Fits.orFuses_inside (h : Fits g outputs)
    (hcapacity : (TermPool.ofOutputs outputs).size ≤ g.terms) :
    ∀ position ∈ (TermPool.ofOutputs outputs).orFuses outputs,
      position.1 < g.outputs ∧ position.2 < g.terms := by
  intro position hposition
  obtain ⟨row, column⟩ := position
  obtain ⟨terms, t, hterms, -, ht⟩ := TermPool.mem_orFuses.mp hposition
  have hrow := (List.getElem?_eq_some_iff.mp hterms).1
  exact ⟨Nat.lt_of_lt_of_le hrow h.length_le,
    Nat.lt_of_lt_of_le (TermPool.lt_size_of_term? ht) hcapacity⟩

theorem Fits.bit_andPlane_ofPool (h : Fits g outputs)
    (hcapacity : (TermPool.ofOutputs outputs).size ≤ g.terms) (row term : Nat) :
    (ofPool g (.ofOutputs outputs) outputs).andPlane.bit row term =
      decide ((row, term) ∈ (TermPool.ofOutputs outputs).andFuses) := by
  rw [ofPool, BitMatrix.bit_setAll _ _ (h.andFuses_inside hcapacity), BitMatrix.bit_zero,
    Bool.or_false]

theorem Fits.bit_orPlane_ofPool (h : Fits g outputs)
    (hcapacity : (TermPool.ofOutputs outputs).size ≤ g.terms) (output term : Nat) :
    (ofPool g (.ofOutputs outputs) outputs).orPlane.bit output term =
      decide ((output, term) ∈ (TermPool.ofOutputs outputs).orFuses outputs) := by
  rw [ofPool, BitMatrix.bit_setAll _ _ (h.orFuses_inside hcapacity), BitMatrix.bit_zero,
    Bool.or_false]

/-- A row is connected to a column if the term of the column has the literal of the row. -/
theorem bit_andPlane_of_assemble {f : FuseMap g} (h : assemble g outputs = .ok f) {row k : Nat} :
    f.andPlane.bit row k = true ↔
      ∃ t, (TermPool.ofOutputs outputs).term? k = some t ∧ ∃ l ∈ t.literals, l.code = row := by
  obtain ⟨hfits, hcapacity, rfl⟩ := assemble_eq_ok_iff.mp h
  rw [hfits.bit_andPlane_ofPool hcapacity, decide_eq_true_iff, TermPool.mem_andFuses]

/-- An output is connected to a column if it lists the term of the column. -/
theorem bit_orPlane_of_assemble {f : FuseMap g} (h : assemble g outputs = .ok f) {o k : Nat} :
    f.orPlane.bit o k = true ↔ ∃ terms t, outputs[o]? = some terms ∧ t ∈ terms ∧
      (TermPool.ofOutputs outputs).term? k = some t := by
  obtain ⟨hfits, hcapacity, rfl⟩ := assemble_eq_ok_iff.mp h
  rw [hfits.bit_orPlane_ofPool hcapacity, decide_eq_true_iff, TermPool.mem_orFuses]

theorem poolSize_of_assemble {f : FuseMap g} (h : assemble g outputs = .ok f) :
    f.poolSize = (TermPool.ofOutputs outputs).size := by
  obtain ⟨-, -, rfl⟩ := assemble_eq_ok_iff.mp h
  rfl

theorem configured_of_assemble {f : FuseMap g} (h : assemble g outputs = .ok f) :
    f.configured = outputs.length := by
  obtain ⟨-, -, rfl⟩ := assemble_eq_ok_iff.mp h
  rfl

/-- The AND fuses of an assembled device, read from its flat configuration. -/
theorem Fits.bit?_andOffset_ofPool (h : Fits g outputs)
    (hcapacity : (TermPool.ofOutputs outputs).size ≤ g.terms) {row term : Nat}
    (hrow : row < g.andRows) (hterm : term < g.terms) :
    (ofPool g (.ofOutputs outputs) outputs).bit? (g.andOffset row term) =
      some (decide ((row, term) ∈ (TermPool.ofOutputs outputs).andFuses)) := by
  rw [bit?_andOffset _ hrow hterm, h.bit_andPlane_ofPool hcapacity]

/-- The OR fuses of an assembled device, read from its flat configuration. -/
theorem Fits.bit?_orOffset_ofPool (h : Fits g outputs)
    (hcapacity : (TermPool.ofOutputs outputs).size ≤ g.terms) {output term : Nat}
    (houtput : output < g.outputs) (hterm : term < g.terms) :
    (ofPool g (.ofOutputs outputs) outputs).bit? (g.orOffset output term) =
      some (decide ((output, term) ∈ (TermPool.ofOutputs outputs).orFuses outputs)) := by
  rw [bit?_orOffset _ houtput hterm, h.bit_orPlane_ofPool hcapacity]

end Fuses

end FuseMap

end ArrayLogic
