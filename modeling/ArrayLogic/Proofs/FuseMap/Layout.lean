import ArrayLogic.Proofs.FuseMap.Assembly

/-! # Layout of an assembled fuse map

Every bit of an assembled fuse map is determined: the column of a term connects the rows of its
literals with the outputs that list it, and no other fuse is set.
-/

namespace ArrayLogic.FuseMap

variable {g : Geometry} {outputs : List (List Term)}

theorem Fits.bit_andPlane_eq_true_iff (h : Fits g outputs)
    (hcapacity : (TermPool.ofOutputs outputs).size ≤ g.terms) {row k : Nat} :
    (ofPool g (.ofOutputs outputs) outputs).andPlane.bit row k = true ↔
      ∃ t, outputs.flatten.eraseDups[k]? = some t ∧ ∃ l ∈ t.literals, l.code = row := by
  rw [h.bit_andPlane_ofPool hcapacity, decide_eq_true_iff, TermPool.mem_andFuses,
    TermPool.term?, TermPool.terms_ofOutputs]

theorem Fits.bit_orPlane_eq_true_iff (h : Fits g outputs)
    (hcapacity : (TermPool.ofOutputs outputs).size ≤ g.terms) {o k : Nat} :
    (ofPool g (.ofOutputs outputs) outputs).orPlane.bit o k = true ↔
      ∃ terms t, outputs[o]? = some terms ∧ t ∈ terms ∧
        outputs.flatten.eraseDups[k]? = some t := by
  rw [h.bit_orPlane_ofPool hcapacity, decide_eq_true_iff, TermPool.mem_orFuses,
    TermPool.term?, TermPool.terms_ofOutputs]

/-- The fuse map of the outputs: the columns hold the distinct terms of all outputs in the order of
their first occurrence. The bits of both planes stand at their places in the flat configuration. -/
structure LaidOut (f : FuseMap g) (outputs : List (List Term)) : Prop where
  andPlace : ∀ row < g.andRows, ∀ k < g.terms,
    f.bit? (g.andOffset row k) = some (f.andPlane.bit row k)
  orPlace : ∀ o < g.outputs, ∀ k < g.terms,
    f.bit? (g.orOffset o k) = some (f.orPlane.bit o k)
  /-- A row is connected to a column if the term of the column has the literal of the row. -/
  andFuse : ∀ row < g.andRows, ∀ k < g.terms, (f.andPlane.bit row k = true ↔
    ∃ t, outputs.flatten.eraseDups[k]? = some t ∧ ∃ l ∈ t.literals, l.code = row)
  /-- An output is connected to a column if it lists the term of the column. -/
  orFuse : ∀ o < g.outputs, ∀ k < g.terms, (f.orPlane.bit o k = true ↔
    ∃ terms t, outputs[o]? = some terms ∧ t ∈ terms ∧ outputs.flatten.eraseDups[k]? = some t)
  poolSize : f.poolSize = outputs.flatten.eraseDups.length
  configured : f.configured = outputs.length
  /-- No term of an output is lost. -/
  connected : ∀ o terms, outputs[o]? = some terms → ∀ t ∈ terms,
    ∃ k < g.terms, outputs.flatten.eraseDups[k]? = some t ∧ f.orPlane.bit o k = true
  unusedColumn : ∀ k, f.poolSize ≤ k →
    (∀ row, f.andPlane.bit row k = false) ∧ ∀ o, f.orPlane.bit o k = false
  unusedOutput : ∀ o, f.configured ≤ o → ∀ k, f.orPlane.bit o k = false

/-- Assembly sets the fuses of the distinct terms of its outputs and no other ones. -/
theorem laidOut_of_assemble {f : FuseMap g} (h : assemble g outputs = .ok f) :
    f.LaidOut outputs := by
  obtain ⟨hfits, hcapacity, rfl⟩ := assemble_eq_ok_iff.mp h
  have hsize : (TermPool.ofOutputs outputs).size = outputs.flatten.eraseDups.length :=
    congrArg List.length (TermPool.terms_ofOutputs outputs)
  constructor
  case andPlace => exact fun row hrow k hk => bit?_andOffset _ hrow hk
  case orPlace => exact fun o ho k hk => bit?_orOffset _ ho hk
  case andFuse => exact fun row _ k _ => hfits.bit_andPlane_eq_true_iff hcapacity
  case orFuse => exact fun o _ k _ => hfits.bit_orPlane_eq_true_iff hcapacity
  case poolSize => exact hsize
  case configured => rfl
  case connected =>
    intro o terms hterms t ht
    have hmem : t ∈ outputs.flatten.eraseDups := by
      rw [List.mem_eraseDups]
      exact List.mem_flatten_of_mem (List.mem_of_getElem? hterms) ht
    obtain ⟨k, hk⟩ := List.mem_iff_getElem?.mp hmem
    have hused : k < (TermPool.ofOutputs outputs).size :=
      hsize ▸ (List.getElem?_eq_some_iff.mp hk).1
    refine ⟨k, Nat.lt_of_lt_of_le hused hcapacity, hk, ?_⟩
    exact (hfits.bit_orPlane_eq_true_iff hcapacity).mpr ⟨terms, t, hterms, ht, hk⟩
  case unusedColumn =>
    intro k hk
    have hnone : outputs.flatten.eraseDups[k]? = none := List.getElem?_eq_none (hsize ▸ hk)
    constructor
    · intro row
      rw [Bool.eq_false_iff, ne_eq, hfits.bit_andPlane_eq_true_iff hcapacity, hnone]
      simp
    · intro o
      rw [Bool.eq_false_iff, ne_eq, hfits.bit_orPlane_eq_true_iff hcapacity, hnone]
      simp
  case unusedOutput =>
    intro o ho k
    have hnone : outputs[o]? = none := List.getElem?_eq_none ho
    rw [Bool.eq_false_iff, ne_eq, hfits.bit_orPlane_eq_true_iff hcapacity, hnone]
    simp

/-- Two outputs share the term with a repeated literal, and one of them also lists the empty term.
The device has more columns than fit a word. -/
theorem laidOut_of_assemble_shared_term :
    let a : Literal := (Signal.ofIndex 0).literal .direct
    let b : Literal := (Signal.ofIndex 1).literal .complement
    let g : Geometry := ⟨2, 70, 3⟩
    let outputs : List (List Term) := [[⟨[a, a]⟩, ⟨[]⟩], [⟨[b, a]⟩, ⟨[a, a]⟩, ⟨[b, a]⟩]]
    ∃ f : FuseMap g, assemble g outputs = .ok f ∧ f.LaidOut outputs ∧
      outputs.flatten.eraseDups = [⟨[a, a]⟩, ⟨[]⟩, ⟨[b, a]⟩] ∧
      f.bit? (g.andOffset 3 2) = some true ∧ f.bit? (g.orOffset 1 0) = some true ∧
      f.bit? (g.orOffset 1 1) = some false := by
  intro a b g outputs
  have h : assemble g outputs = .ok (ofPool g (.ofOutputs outputs) outputs) := by decide +kernel
  have hpool : outputs.flatten.eraseDups = [⟨[a, a]⟩, ⟨[]⟩, ⟨[b, a]⟩] := by decide +kernel
  have hlaid := laidOut_of_assemble h
  refine ⟨_, h, hlaid, hpool, ?_, ?_, ?_⟩
  · have hset := (hlaid.andFuse 3 (by decide) 2 (by decide)).mpr
      ⟨⟨[b, a]⟩, by rw [hpool]; rfl, b, by decide, by decide⟩
    rw [hlaid.andPlace 3 (by decide) 2 (by decide), hset]
  · have hset := (hlaid.orFuse 1 (by decide) 0 (by decide)).mpr
      ⟨_, ⟨[a, a]⟩, rfl, by decide, by rw [hpool]; rfl⟩
    rw [hlaid.orPlace 1 (by decide) 0 (by decide), hset]
  · decide +kernel

end ArrayLogic.FuseMap
