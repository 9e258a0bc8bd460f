import ArrayLogic.Proofs.FuseMap.Assembly

/-! # The function of a device

A configured device computes a sum of products for each output. A column is true if every literal
that is connected to it is, and an output if a column that is connected to it is. The function is
told from the flat configuration alone.
-/

namespace ArrayLogic

/-- A literal is true if its row agrees with its signal. -/
theorem Literal.eval_eq_true_iff {l : Literal} {v : Assignment} :
    l.eval v = true ↔ (l.code = 2 * l.index → v (.ofIndex l.index) = true) ∧
      (l.code = 2 * l.index + 1 → v (.ofIndex l.index) = false) := by
  rcases l with ⟨s, polarity⟩
  rw [index, Signal.ofIndex_index]
  cases polarity
  · simp [eval, code, Polarity.apply, Polarity.isComplement, Polarity.offset]
  · simp [eval, code, Polarity.apply, Polarity.isComplement, Polarity.offset]

namespace FuseMap

variable {g : Geometry}

/-- Whether the fuse at a place of the flat configuration is set. -/
def isSet (f : FuseMap g) (place : Nat) : Bool :=
  f.bit? place == some true

/-- The value of a column: each connected input has the value that its row asks for. -/
def columnValue (f : FuseMap g) (v : Assignment) (term : Nat) : Bool :=
  (List.range g.inputs).all fun i =>
    (!f.isSet (g.andOffset (2 * i) term) || v (.ofIndex i)) &&
      (!f.isSet (g.andOffset (2 * i + 1) term) || !v (.ofIndex i))

/-- The value of an output: some connected column is true. -/
def outputValue (f : FuseMap g) (v : Assignment) (output : Nat) : Bool :=
  (List.range g.terms).any fun term =>
    f.isSet (g.orOffset output term) && f.columnValue v term

theorem columnValue_eq_true_iff {f : FuseMap g} {v : Assignment} {term : Nat} :
    f.columnValue v term = true ↔ ∀ i < g.inputs,
      (f.isSet (g.andOffset (2 * i) term) = true → v (.ofIndex i) = true) ∧
        (f.isSet (g.andOffset (2 * i + 1) term) = true → v (.ofIndex i) = false) := by
  simp [columnValue, imp_iff_not_or]

theorem outputValue_eq_true_iff {f : FuseMap g} {v : Assignment} {output : Nat} :
    f.outputValue v output = true ↔ ∃ term < g.terms,
      f.isSet (g.orOffset output term) = true ∧ f.columnValue v term = true := by
  simp [outputValue]

theorem direct_row_lt {i : Nat} (h : i < g.inputs) : 2 * i < g.andRows := by
  unfold Geometry.andRows
  omega

theorem complement_row_lt {i : Nat} (h : i < g.inputs) : 2 * i + 1 < g.andRows := by
  unfold Geometry.andRows
  omega

section Assembled

variable {outputs : List (List Term)}

theorem Fits.isSet_andOffset (h : Fits g outputs)
    (hcapacity : (TermPool.ofOutputs outputs).size ≤ g.terms) {row term : Nat}
    (hrow : row < g.andRows) (hterm : term < g.terms) :
    (ofPool g (.ofOutputs outputs) outputs).isSet (g.andOffset row term) = true ↔
      (row, term) ∈ (TermPool.ofOutputs outputs).andFuses := by
  rw [isSet, h.bit?_andOffset_ofPool hcapacity hrow hterm]
  simp

theorem Fits.isSet_orOffset (h : Fits g outputs)
    (hcapacity : (TermPool.ofOutputs outputs).size ≤ g.terms) {output term : Nat}
    (houtput : output < g.outputs) (hterm : term < g.terms) :
    (ofPool g (.ofOutputs outputs) outputs).isSet (g.orOffset output term) = true ↔
      (output, term) ∈ (TermPool.ofOutputs outputs).orFuses outputs := by
  rw [isSet, h.bit?_orOffset_ofPool hcapacity houtput hterm]
  simp

/-- A column computes its term. -/
theorem Fits.columnValue_ofPool (h : Fits g outputs)
    (hcapacity : (TermPool.ofOutputs outputs).size ≤ g.terms) {term : Nat} {t : Term}
    (ht : (TermPool.ofOutputs outputs).term? term = some t) (v : Assignment) :
    (ofPool g (.ofOutputs outputs) outputs).columnValue v term = t.eval v := by
  have hterm := Nat.lt_of_lt_of_le (TermPool.lt_size_of_term? ht) hcapacity
  obtain ⟨terms, hterms, hmem⟩ := TermPool.mem_ofOutputs.mp (List.mem_of_getElem? ht)
  have hset (row : Nat) (hrow : row < g.andRows) :
      (ofPool g (.ofOutputs outputs) outputs).isSet (g.andOffset row term) = true ↔
        ∃ l ∈ t.literals, l.code = row := by
    rw [h.isSet_andOffset hcapacity hrow hterm, TermPool.mem_andFuses, ht]
    simp
  rw [Bool.eq_iff_iff, columnValue_eq_true_iff, Term.eval, List.all_eq_true]
  constructor
  · -- A literal of the term connects the row of its polarity.
    intro hrows l hl
    have hindex := h.index_lt terms hterms t hmem l hl
    obtain ⟨hdirect, hcomplement⟩ := hrows l.index hindex
    apply Literal.eval_eq_true_iff.mpr
    constructor
    · intro hcode
      exact hdirect ((hset _ (direct_row_lt hindex)).mpr ⟨l, hl, hcode⟩)
    · intro hcode
      exact hcomplement ((hset _ (complement_row_lt hindex)).mpr ⟨l, hl, hcode⟩)
  · -- A connected row belongs to a literal of the term, and its number tells the signal.
    intro hliterals i hi
    constructor
    · intro hrow
      obtain ⟨l, hl, hcode⟩ := (hset _ (direct_row_lt hi)).mp hrow
      obtain rfl : l.index = i := by
        have := l.code_div_two
        omega
      exact (Literal.eval_eq_true_iff.mp (hliterals l hl)).1 hcode
    · intro hrow
      obtain ⟨l, hl, hcode⟩ := (hset _ (complement_row_lt hi)).mp hrow
      obtain rfl : l.index = i := by
        have := l.code_div_two
        omega
      exact (Literal.eval_eq_true_iff.mp (hliterals l hl)).2 hcode

/-- An assembled output computes the sum of its terms. An output that is not in use is false. -/
theorem Fits.outputValue_ofPool (h : Fits g outputs)
    (hcapacity : (TermPool.ofOutputs outputs).size ≤ g.terms) {output : Nat}
    (houtput : output < g.outputs) (v : Assignment) :
    (ofPool g (.ofOutputs outputs) outputs).outputValue v output =
      (outputs[output]?.getD []).any (·.eval v) := by
  rw [Bool.eq_iff_iff, outputValue_eq_true_iff, List.any_eq_true]
  constructor
  · intro hparts
    obtain ⟨term, hterm, hset, hvalue⟩ := hparts
    obtain ⟨terms, t, hterms, hmem, ht⟩ :=
      TermPool.mem_orFuses.mp ((h.isSet_orOffset hcapacity houtput hterm).mp hset)
    rw [h.columnValue_ofPool hcapacity ht] at hvalue
    exact ⟨t, by simpa [hterms] using hmem, hvalue⟩
  · intro hparts
    obtain ⟨t, hmem, hvalue⟩ := hparts
    cases hterms : outputs[output]? with
    | none => simp [hterms] at hmem
    | some terms =>
        have hmem : t ∈ terms := by simpa [hterms] using hmem
        have hpool : t ∈ (TermPool.ofOutputs outputs).terms :=
          TermPool.mem_ofOutputs.mpr ⟨terms, List.mem_of_getElem? hterms, hmem⟩
        obtain ⟨term, ht⟩ := TermPool.exists_term?_of_mem hpool
        have hterm := Nat.lt_of_lt_of_le (TermPool.lt_size_of_term? ht) hcapacity
        refine ⟨term, hterm, ?_, by rwa [h.columnValue_ofPool hcapacity ht]⟩
        apply (h.isSet_orOffset hcapacity houtput hterm).mpr
        exact TermPool.mem_orFuses.mpr ⟨terms, t, hterms, hmem, ht⟩

/-- The flat configuration of an assembled device computes the terms that it was assembled from: an
output is true exactly if one of its terms is. The outputs that are not in use are false. -/
theorem outputValue_of_assemble {f : FuseMap g} (h : assemble g outputs = .ok f) (v : Assignment)
    {o : Nat} (ho : o < g.outputs) :
    (∀ terms, outputs[o]? = some terms → f.outputValue v o = terms.any (·.eval v)) ∧
      (outputs.length ≤ o → f.outputValue v o = false) := by
  obtain ⟨hfits, hcapacity, rfl⟩ := assemble_eq_ok_iff.mp h
  have hvalue := hfits.outputValue_ofPool hcapacity ho v
  constructor
  · intro terms hterms
    rw [hvalue, hterms, Option.getD_some]
  · intro hunused
    rw [hvalue, List.getElem?_eq_none hunused, Option.getD_none, List.any_nil]

/-- The outputs share a column, one of them lists a contradiction, and the literals of a term come
in any order. The last output has no terms. -/
theorem outputValue_of_assemble_shared_term :
    let a : Literal := (Signal.ofIndex 0).literal .direct
    let b : Literal := (Signal.ofIndex 1).literal .direct
    let g : Geometry := ⟨2, 4, 3⟩
    let outputs : List (List Term) := [[⟨[a, a.flip]⟩, ⟨[b.flip, a]⟩], [⟨[b]⟩, ⟨[b.flip, a]⟩]]
    let v : Assignment := fun s => s.index == 0
    ∃ f : FuseMap g, assemble g outputs = .ok f ∧ f.poolSize = 3 ∧
      f.outputValue v 0 = true ∧ f.outputValue v 1 = true ∧ f.outputValue v 2 = false := by
  intro a b g outputs v
  have h : assemble g outputs = .ok (ofPool g (.ofOutputs outputs) outputs) := by decide +kernel
  refine ⟨_, h, by decide +kernel, ?_, ?_, ?_⟩
  · exact (outputValue_of_assemble h v (o := 0) (by decide)).1 _ rfl
  · exact (outputValue_of_assemble h v (o := 1) (by decide)).1 _ rfl
  · exact (outputValue_of_assemble h v (o := 2) (by decide)).2 (by decide)

end Assembled

end FuseMap

end ArrayLogic
