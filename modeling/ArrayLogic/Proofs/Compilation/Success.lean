import ArrayLogic.Compilation
import ArrayLogic.Proofs.Cover.Irredundance
import ArrayLogic.Proofs.Definitions.Execution
import ArrayLogic.Proofs.Definitions.Outputs
import ArrayLogic.Proofs.FuseMap.Assembly
import ArrayLogic.Proofs.NormalForm.RoundTrip

/-! # Which sources compile

After the outputs of a source are selected, only the number of columns can be in the way. Normal
forms are always split, their literals are inputs of the device, and no more outputs are selected
than it has. Terms of cubes are distinct exactly if their sets of literals are, so the columns can
be counted by sets.
-/

namespace ArrayLogic

/-! ## Counting columns -/

/-- The literals of a cube determine the cube. -/
theorem Cube.Ordered.eq_of_toFinset_eq {a b : Cube} (ha : a.Ordered) (hb : b.Ordered)
    (h : a.literals.toFinset = b.literals.toFinset) : a = b := by
  have hmem (l : Literal) : l ∈ a.literals ↔ l ∈ b.literals := by
    rw [← List.mem_toFinset, h, List.mem_toFinset]
  exact ha.eq_of_subset hb (fun l => (hmem l).mp) fun l => (hmem l).mpr

/-- The output with its normal form and its terms. -/
def Output.compiled (o : Output) : CompiledOutput :=
  ⟨o.expand, o.formula.toCover.terms⟩

namespace Compilation

/-- The terms of each output. -/
def outputTerms (outputs : List Output) : List (List Term) :=
  outputs.map fun o => o.formula.toCover.terms

/-- The cubes of all outputs as sets of literals. -/
def literalSets (outputs : List Output) : Finset (Finset Literal) :=
  (outputs.flatMap fun o => o.formula.toCover.cubes.map fun cube => cube.literals.toFinset).toFinset

theorem mem_flatten_outputTerms {outputs : List Output} {t : Term} :
    t ∈ (outputTerms outputs).flatten ↔
      ∃ o ∈ outputs, ∃ cube ∈ o.formula.toCover.cubes, cube.term = t := by
  simp [outputTerms, Cover.terms]

theorem size_ofOutputs_eq_card_literalSets (outputs : List Output) :
    (TermPool.ofOutputs (outputTerms outputs)).size = (literalSets outputs).card := by
  have himage : literalSets outputs =
      (outputTerms outputs).flatten.toFinset.image fun t => t.literals.toFinset := by
    ext literals
    simp only [literalSets, List.mem_toFinset, List.mem_flatMap, List.mem_map, Finset.mem_image,
      mem_flatten_outputTerms]
    constructor
    · intro hparts
      obtain ⟨o, ho, cube, hcube, hliterals⟩ := hparts
      exact ⟨cube.term, ⟨o, ho, cube, hcube, rfl⟩, hliterals⟩
    · intro hparts
      obtain ⟨t, ⟨o, ho, cube, hcube, rfl⟩, hliterals⟩ := hparts
      exact ⟨o, ho, cube, hcube, hliterals⟩
  rw [TermPool.size_ofOutputs, himage]
  -- A term lists its literals in order, so no two of them have the same set.
  refine (Finset.card_image_of_injOn ?_).symm
  intro t ht u hu hsets
  obtain ⟨o, -, a, ha, rfl⟩ := mem_flatten_outputTerms.mp (List.mem_toFinset.mp ht)
  obtain ⟨p, -, b, hb, rfl⟩ := mem_flatten_outputTerms.mp (List.mem_toFinset.mp hu)
  have hordered := (o.formula.reachable_cover false).reduced.ordered a ha
  have hordered' := (p.formula.reachable_cover false).reduced.ordered b hb
  exact congrArg Cube.term (hordered.eq_of_toFinset_eq hordered' hsets)

/-! ## Stages -/

/-- The equations of a source are read and defined, and its outputs are selected. -/
structure Prepared (g : Geometry) (source : String) (equations : List Equation) (d : Definitions)
    (outputs : List Output) : Prop where
  read : Source.read source = .ok equations
  define : (Definitions.empty g.inputs).defineAll equations = (d, none)
  select : d.outputs g.outputs = .ok outputs

theorem split_expand (o : Output) : o.expand.split = .ok o.compiled := by
  have hread : NormalForm.readTerms o.expand.normalForm = .ok o.formula.toCover.terms :=
    (o.formula.reachable_cover false).reduced.readTerms_text
  rw [ExpandedOutput.split, hread]
  rfl

theorem mapM_split_expand (outputs : List Output) :
    (outputs.map Output.expand).mapM ExpandedOutput.split =
      .ok (outputs.map Output.compiled) := by
  apply mapM_eq_ok_iff.mpr
  induction outputs with
  | nil => exact .nil
  | cons o outputs ih => exact .cons (split_expand o) ih

theorem definitions_eq_ok_iff {g : Geometry} {source : String} {d : Definitions} :
    definitions g source = .ok d ↔ ∃ equations, Source.read source = .ok equations ∧
      (Definitions.empty g.inputs).defineAll equations = (d, none) := by
  unfold definitions
  cases Source.read source with
  | error invalid => simp
  | ok equations =>
      rcases hdefine : (Definitions.empty g.inputs).defineAll equations with ⟨d', _ | cause⟩
      · simp [hdefine]
      · simp [hdefine]

/-- Compilation goes on from the selected outputs. -/
theorem compile_eq_of_outputs_eq {g : Geometry} {source source' : String} {d d' : Definitions}
    (h : definitions g source = .ok d) (h' : definitions g source' = .ok d')
    (houtputs : d.outputs g.outputs = d'.outputs g.outputs) :
    compile g source = compile g source' := by
  simp only [compile, h, h', houtputs, bind, Except.bind]

theorem definitions_of_compile {g : Geometry} {source : String} {c : Compilation g}
    (h : compile g source = .ok c) : ∃ d, definitions g source = .ok d := by
  obtain ⟨d, hd, -⟩ := bind_eq_ok_iff.mp h
  exact ⟨d, hd⟩

namespace Prepared

variable {g : Geometry} {source : String} {equations : List Equation} {d : Definitions}
  {outputs : List Output}

theorem definitions_eq_ok (h : Prepared g source equations d outputs) :
    definitions g source = .ok d := by
  simp only [definitions, h.read, h.define]

/-- Only assembly is left. -/
theorem compile_eq (h : Prepared g source equations d outputs) :
    compile g source = ((FuseMap.assemble g (outputTerms outputs)).mapError .assembly).map
      fun fuseMap => ⟨outputs.map Output.compiled, fuseMap⟩ := by
  have hterms : (outputs.map Output.compiled).map CompiledOutput.terms = outputTerms outputs := by
    rw [List.map_map]
    rfl
  simp only [compile, h.definitions_eq_ok, bind, Except.bind, h.select, Except.mapError,
    mapM_split_expand, hterms]
  cases FuseMap.assemble g (outputTerms outputs) with
  | error cause => rfl
  | ok fuseMap => rfl

theorem fits (h : Prepared g source equations d outputs) : FuseMap.Fits g (outputTerms outputs) := by
  have hselected := Definitions.selected_of_outputs h.select
  constructor
  · rw [outputTerms, List.length_map]
    exact hselected.length_le
  · intro terms hterms t ht l hl
    obtain ⟨o, ho, cube, hcube, rfl⟩ :=
      mem_flatten_outputTerms.mp (List.mem_flatten_of_mem hterms ht)
    obtain ⟨i, hi⟩ := List.mem_iff_getElem?.mp ho
    have hall := Definitions.all_index_lt_defineAll g.inputs equations
    rw [h.define] at hall
    have hformula := hall _ _ (hselected.bound i o hi).2
    apply hformula.index_lt_of_mem_demanded
    exact Formula.mem_demanded_of_mentions ⟨cube, hcube, hl⟩

theorem compile_of_card_le (h : Prepared g source equations d outputs)
    (hcapacity : (literalSets outputs).card ≤ g.terms) :
    compile g source = .ok ⟨outputs.map Output.compiled,
      .ofPool g (.ofOutputs (outputTerms outputs)) (outputTerms outputs)⟩ := by
  rw [← size_ofOutputs_eq_card_literalSets] at hcapacity
  rw [h.compile_eq, FuseMap.assemble_eq_ok_iff.mpr ⟨h.fits, hcapacity, rfl⟩]
  rfl

theorem compile_of_lt_card (h : Prepared g source equations d outputs)
    (hcapacity : g.terms < (literalSets outputs).card) : compile g source =
      .error (.assembly (.capacityExceeded (literalSets outputs).card g.terms)) := by
  rw [← size_ofOutputs_eq_card_literalSets] at hcapacity ⊢
  rw [h.compile_eq, FuseMap.assemble_of_capacity_lt h.fits.length_le hcapacity]
  rfl

end Prepared

/-- A source that cannot be prepared fails in one of the first stages. -/
theorem prepared_or_error (g : Geometry) (source : String) :
    (∃ equations d outputs, Prepared g source equations d outputs) ∨
      (∃ invalid, compile g source = .error (.source invalid)) ∨
      (∃ cause, compile g source = .error (.equation cause)) ∨
      ∃ cause, compile g source = .error (.outputs cause) := by
  cases hread : Source.read source with
  | error invalid =>
      refine .inr (.inl ⟨invalid, ?_⟩)
      simp only [compile, definitions, hread, bind, Except.bind]
  | ok equations =>
      rcases hdefine : (Definitions.empty g.inputs).defineAll equations with ⟨d, _ | cause⟩
      · have hdefinitions : definitions g source = .ok d := by
          simp only [definitions, hread, hdefine]
        cases hselect : d.outputs g.outputs with
        | error cause =>
            refine .inr (.inr (.inr ⟨cause, ?_⟩))
            simp only [compile, hdefinitions, hselect, bind, Except.bind, Except.mapError]
        | ok outputs => exact .inl ⟨equations, d, outputs, hread, hdefine, hselect⟩
      · refine .inr (.inr (.inl ⟨cause, ?_⟩))
        simp only [compile, definitions, hread, hdefine, bind, Except.bind]

theorem exists_prepared_of_compile {g : Geometry} {source : String} {c : Compilation g}
    (h : compile g source = .ok c) : ∃ equations d outputs,
      Prepared g source equations d outputs ∧ (literalSets outputs).card ≤ g.terms := by
  rcases prepared_or_error g source with ⟨equations, d, outputs, hprepared⟩ | hfailed
  · refine ⟨equations, d, outputs, hprepared, Nat.not_lt.mp ?_⟩
    intro hcapacity
    rw [hprepared.compile_of_lt_card hcapacity] at h
    simp at h
  · rcases hfailed with ⟨_, hfailed⟩ | ⟨_, hfailed⟩ | ⟨_, hfailed⟩
    · simp [hfailed] at h
    · simp [hfailed] at h
    · simp [hfailed] at h

theorem compile_error_cases {g : Geometry} {source : String} {error : CompileError}
    (h : compile g source = .error error) :
    (∃ invalid, error = .source invalid) ∨ (∃ cause, error = .equation cause) ∨
      (∃ cause, error = .outputs cause) ∨
      ∃ poolSize, error = .assembly (.capacityExceeded poolSize g.terms) := by
  rcases prepared_or_error g source with ⟨equations, d, outputs, hprepared⟩ | hfailed
  · by_cases hcapacity : (literalSets outputs).card ≤ g.terms
    · rw [hprepared.compile_of_card_le hcapacity] at h
      simp at h
    · rw [hprepared.compile_of_lt_card (Nat.not_le.mp hcapacity)] at h
      exact .inr (.inr (.inr ⟨_, (Except.error.inj h).symm⟩))
  · rcases hfailed with ⟨invalid, hfailed⟩ | ⟨cause, hfailed⟩ | ⟨cause, hfailed⟩
    · exact .inl ⟨invalid, Except.error.inj (h.symm.trans hfailed)⟩
    · exact .inr (.inl ⟨cause, Except.error.inj (h.symm.trans hfailed)⟩)
    · exact .inr (.inr (.inl ⟨cause, Except.error.inj (h.symm.trans hfailed)⟩))

/-- A source compiles exactly if its equations are read and defined, its outputs are selected, and
the cubes of the outputs, counted as sets of literals, do not exceed the columns of the device. If
only the last is missing, both numbers are reported. The later stages never fail otherwise. -/
theorem compile_outcome (g : Geometry) (source : String) :
    ((∃ c, compile g source = .ok c) ↔ ∃ equations d outputs,
      Source.read source = .ok equations ∧
        (Definitions.empty g.inputs).defineAll equations = (d, none) ∧
        d.outputs g.outputs = .ok outputs ∧ (literalSets outputs).card ≤ g.terms) ∧
    (∀ equations d outputs, Source.read source = .ok equations →
      (Definitions.empty g.inputs).defineAll equations = (d, none) →
      d.outputs g.outputs = .ok outputs → g.terms < (literalSets outputs).card →
        compile g source =
          .error (.assembly (.capacityExceeded (literalSets outputs).card g.terms))) ∧
    (∀ name normalForm cause, compile g source ≠ .error (.extraction name normalForm cause)) ∧
    (∀ l inputs, compile g source ≠ .error (.assembly (.signalOutOfRange l inputs))) ∧
    ∀ configured outputs,
      compile g source ≠ .error (.assembly (.tooManyOutputs configured outputs)) := by
  refine ⟨⟨?_, ?_⟩, ?_, ?_, ?_, ?_⟩
  · intro hparts
    obtain ⟨c, hc⟩ := hparts
    obtain ⟨equations, d, outputs, hprepared, hcapacity⟩ := exists_prepared_of_compile hc
    exact ⟨equations, d, outputs, hprepared.read, hprepared.define, hprepared.select, hcapacity⟩
  · intro hparts
    obtain ⟨equations, d, outputs, hread, hdefine, hselect, hcapacity⟩ := hparts
    have hprepared : Prepared g source equations d outputs := ⟨hread, hdefine, hselect⟩
    exact ⟨_, hprepared.compile_of_card_le hcapacity⟩
  · intro equations d outputs hread hdefine hselect hcapacity
    have hprepared : Prepared g source equations d outputs := ⟨hread, hdefine, hselect⟩
    exact hprepared.compile_of_lt_card hcapacity
  · intro name normalForm cause h
    simpa using compile_error_cases h
  · intro l inputs h
    simpa using compile_error_cases h
  · intro configured outputs h
    simpa using compile_error_cases h

/-- An exclusive or of two inputs takes two columns. -/
theorem compile_outcome_exclusive_or :
    let g : Geometry := ⟨2, 1, 1⟩
    let f : Formula :=
      .xor (.lit ((Signal.ofIndex 0).literal .direct)) (.lit ((Signal.ofIndex 1).literal .direct))
    let d := (Definitions.empty 2).insert "O0" f
    Source.read "O0 = I0 ^ I1" = .ok [⟨"O0", "I0 ^ I1", 1⟩] ∧
      (Definitions.empty 2).defineAll [⟨"O0", "I0 ^ I1", 1⟩] = (d, none) ∧
      d.outputs 1 = .ok [⟨0, f⟩] ∧ (literalSets [⟨0, f⟩]).card = 2 ∧
      compile g "O0 = I0 ^ I1" = .error (.assembly (.capacityExceeded 2 1)) := by
  intro g f d
  have hread : Source.read "O0 = I0 ^ I1" = .ok [⟨"O0", "I0 ^ I1", 1⟩] := by decide +kernel
  have hdefine : (Definitions.empty 2).defineAll [⟨"O0", "I0 ^ I1", 1⟩] = (d, none) := by
    decide +kernel
  have hselect : d.outputs 1 = .ok [⟨0, f⟩] := by decide +kernel
  have hcard : (literalSets [⟨0, f⟩]).card = 2 := by decide +kernel
  have hcompile := (compile_outcome g "O0 = I0 ^ I1").2.1 _ d _ hread hdefine hselect
    (by rw [hcard]; decide)
  rw [hcard] at hcompile
  exact ⟨hread, hdefine, hselect, hcard, hcompile⟩

end Compilation

end ArrayLogic
