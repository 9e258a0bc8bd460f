import ArrayLogic.Proofs.Compilation.Success
import ArrayLogic.Proofs.Device
import ArrayLogic.Proofs.FuseMap.Function

/-! # Compiled devices compute their equations

The device that a source is compiled to has, at each output in use, the value that executing the
equations of the source assigns to the name of the output. The other outputs are false.
-/

namespace ArrayLogic

theorem Cover.any_eval_terms (c : Cover) (v : Assignment) :
    c.terms.any (·.eval v) = c.eval v := by
  rw [terms, List.any_map]
  rfl

namespace Compilation

namespace Prepared

variable {g : Geometry} {source : String} {equations : List Equation} {d : Definitions}
  {outputs : List Output}

theorem executes_iff (h : Prepared g source equations d outputs) (hg : g.Representable)
    {v : Assignment} {σ : Store} :
    Store.Executes g.inputs v .empty equations σ ↔ σ = d.store v := by
  rw [← Definitions.store_empty g.inputs v]
  exact Definitions.executes_iff_of_defineAll hg.inputs_le h.define

theorem store_output (h : Prepared g source equations d outputs) (v : Assignment) {o : Nat}
    (ho : o < outputs.length) :
    d.store v (Name.output o) = some (((outputTerms outputs)[o]?.getD []).any (·.eval v)) := by
  have hbound := (Definitions.selected_of_outputs h.select).bound o _ (List.getElem?_eq_getElem ho)
  have hterms : (outputTerms outputs)[o]? = some outputs[o].formula.toCover.terms := by
    rw [outputTerms, List.getElem?_map, List.getElem?_eq_getElem ho]
    rfl
  rw [Definitions.store, hbound.2, hterms, Option.getD_some, Cover.any_eval_terms,
    Formula.toCover, Formula.eval_cover, Bool.xor_false, Option.map_some]

theorem outputTerms_eq_nil {o : Nat} (ho : outputs.length ≤ o) :
    (outputTerms outputs)[o]?.getD [] = [] := by
  rw [outputTerms, List.getElem?_eq_none (by simpa using ho)]
  rfl

end Prepared

/-- The flat configuration of a compiled device computes the equations of its source. There is one
execution of the equations. It assigns a value to every output in use, and the device has this value
there and is false at every other output. -/
theorem compile_computes_equations {g : Geometry} (hg : g.Representable) {source : String}
    {c : Compilation g} (h : compile g source = .ok c) (v : Assignment) :
    ∃ equations σ, Source.read source = .ok equations ∧
      (∀ τ, Store.Executes g.inputs v .empty equations τ ↔ τ = σ) ∧
      ∀ o < g.outputs,
        (o < c.fuseMap.configured →
          σ (Name.output o) = some (c.fuseMap.outputValue v o)) ∧
        (c.fuseMap.configured ≤ o → c.fuseMap.outputValue v o = false) := by
  obtain ⟨equations, d, outputs, hprepared, hcapacity⟩ := exists_prepared_of_compile h
  obtain rfl := Except.ok.inj ((hprepared.compile_of_card_le hcapacity).symm.trans h)
  rw [← size_ofOutputs_eq_card_literalSets] at hcapacity
  refine ⟨equations, d.store v, hprepared.read, fun τ => hprepared.executes_iff hg, ?_⟩
  intro o ho
  have hvalue := hprepared.fits.outputValue_ofPool hcapacity ho v
  have hconfigured : (outputTerms outputs).length = outputs.length := List.length_map _
  constructor
  · intro hused
    rw [hvalue]
    exact hprepared.store_output v (hconfigured ▸ hused)
  · intro hunused
    rw [hvalue, Prepared.outputTerms_eq_nil (hconfigured ▸ hunused)]
    rfl

/-- A temporary that is defined twice keeps its first meaning in the output between the definitions.
The device has two outputs in use and one that is not. -/
theorem compile_computes_redefined_temporary :
    let g : Geometry := ⟨2, 3, 3⟩
    let source := "T0 = ~I0\nO0 = T0 & I1\nT0 = ~T0\nO1 = T0 ^ I1\n"
    let v : Assignment := fun s => s.index == 1
    g.Representable ∧ ∃ c : Compilation g, compile g source = .ok c ∧
      c.fuseMap.configured = 2 ∧
      ∃ equations σ, Source.read source = .ok equations ∧
        Store.Executes g.inputs v .empty equations σ ∧
        σ (Name.output 0) = some (c.fuseMap.outputValue v 0) ∧
        σ (Name.output 1) = some (c.fuseMap.outputValue v 1) ∧
        c.fuseMap.outputValue v 0 = true ∧ c.fuseMap.outputValue v 1 = true ∧
        c.fuseMap.outputValue v 2 = false := by
  intro g source v
  have hg : g.Representable := ⟨by decide, by decide, by decide, by decide⟩
  have hcompiled : (compile g source).toOption.map (fun c =>
      (c.fuseMap.configured, c.fuseMap.outputValue v 0, c.fuseMap.outputValue v 1)) =
        some (2, true, true) := by
    decide +kernel
  obtain ⟨c, hc, hfuses⟩ := Option.map_eq_some_iff.mp hcompiled
  obtain ⟨hconfigured, hfirst, hsecond⟩ : c.fuseMap.configured = 2 ∧
      c.fuseMap.outputValue v 0 = true ∧ c.fuseMap.outputValue v 1 = true := by
    simpa using hfuses
  have h : compile g source = .ok c := by
    cases hresult : compile g source with
    | error cause => simp [hresult, Except.toOption] at hc
    | ok c' => simpa [hresult, Except.toOption] using hc
  obtain ⟨equations, σ, hread, hexecutes, hvalues⟩ := compile_computes_equations hg h v
  refine ⟨hg, c, h, hconfigured, equations, σ, hread, (hexecutes σ).mpr rfl, ?_, ?_, hfirst,
    hsecond, ?_⟩
  · exact (hvalues 0 (by decide)).1 (by omega)
  · exact (hvalues 1 (by decide)).1 (by omega)
  · exact (hvalues 2 (by decide)).2 (by omega)

end Compilation

end ArrayLogic
