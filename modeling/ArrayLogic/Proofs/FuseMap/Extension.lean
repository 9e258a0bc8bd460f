import ArrayLogic.Proofs.FuseMap.Assembly

/-! # Extending an assembly

Outputs can be added to those that are assembled without a change to the present ones. Their terms
keep their columns, and new terms take the columns behind them, so that the fuses of the present
terms and outputs stay as they are.
-/

namespace ArrayLogic.FuseMap

variable {g : Geometry} {xs ys : List (List Term)} {f f₁ : FuseMap g}

theorem Fits.of_append (h : Fits g (xs ++ ys)) : Fits g xs := by
  constructor
  · have hlength := h.length_le
    rw [List.length_append] at hlength
    omega
  · intro terms hterms
    exact h.index_lt terms (List.mem_append_left ys hterms)

theorem size_le_size_append (xs ys : List (List Term)) :
    (TermPool.ofOutputs xs).size ≤ (TermPool.ofOutputs (xs ++ ys)).size :=
  (TermPool.terms_ofOutputs_append xs ys).length_le

theorem exists_assemble_of_append (h : assemble g (xs ++ ys) = .ok f) :
    ∃ f₁, assemble g xs = .ok f₁ := by
  obtain ⟨hfits, hcapacity, -⟩ := assemble_eq_ok_iff.mp h
  have hcapacity₁ := Nat.le_trans (size_le_size_append xs ys) hcapacity
  exact ⟨_, assemble_eq_ok_iff.mpr ⟨hfits.of_append, hcapacity₁, rfl⟩⟩

theorem bit_andPlane_append (h : assemble g (xs ++ ys) = .ok f) (h₁ : assemble g xs = .ok f₁)
    (row : Nat) {k : Nat} (hk : k < f₁.poolSize) :
    f₁.andPlane.bit row k = f.andPlane.bit row k := by
  rw [poolSize_of_assemble h₁] at hk
  rw [Bool.eq_iff_iff, bit_andPlane_of_assemble h₁, bit_andPlane_of_assemble h,
    TermPool.term?_ofOutputs_append ys hk]

theorem bit_orPlane_append (h : assemble g (xs ++ ys) = .ok f) (h₁ : assemble g xs = .ok f₁)
    {o : Nat} (ho : o < xs.length) (k : Nat) : f₁.orPlane.bit o k = f.orPlane.bit o k := by
  rw [Bool.eq_iff_iff, bit_orPlane_of_assemble h₁, bit_orPlane_of_assemble h,
    List.getElem?_append_left ho]
  refine exists₂_congr fun terms t => and_congr_right fun hterms => and_congr_right fun ht => ?_
  -- No column but its own can show a term of this output, also behind the first columns.
  have hpool : t ∈ (TermPool.ofOutputs xs).terms :=
    TermPool.mem_ofOutputs.mpr ⟨terms, List.mem_of_getElem? hterms, ht⟩
  exact (TermPool.term?_ofOutputs_append_iff hpool).symm

/-- If an assembly succeeds, then so does that of its first outputs alone. The columns that these
need are the same in both, and so are their rows of the OR plane. -/
theorem assemble_of_assemble_append (h : assemble g (xs ++ ys) = .ok f) :
    ∃ f₁, assemble g xs = .ok f₁ ∧ f₁.poolSize ≤ f.poolSize ∧
      (∀ row < g.andRows, ∀ k < f₁.poolSize, f₁.andPlane.bit row k = f.andPlane.bit row k) ∧
      ∀ o < xs.length, f₁.orPlane.row o = f.orPlane.row o := by
  obtain ⟨f₁, h₁⟩ := exists_assemble_of_append h
  refine ⟨f₁, h₁, ?_, fun row _ k hk => bit_andPlane_append h h₁ row hk, ?_⟩
  · rw [poolSize_of_assemble h₁, poolSize_of_assemble h]
    exact size_le_size_append xs ys
  · intro o ho
    exact List.map_congr_left fun k _ => bit_orPlane_append h h₁ ho k

/-- The added output shares a term with the first one and takes one more column. The last column
that the first output needs is connected to the complement of the second input. -/
theorem assemble_of_assemble_append_shared_term :
    let a : Literal := (Signal.ofIndex 0).literal .direct
    let b : Literal := (Signal.ofIndex 1).literal .complement
    let g : Geometry := ⟨2, 3, 2⟩
    let xs : List (List Term) := [[⟨[a]⟩, ⟨[b, a]⟩]]
    let ys : List (List Term) := [[⟨[b]⟩, ⟨[a]⟩]]
    ∃ f f₁ : FuseMap g, assemble g (xs ++ ys) = .ok f ∧ assemble g xs = .ok f₁ ∧
      f.poolSize = 3 ∧ f₁.poolSize ≤ f.poolSize ∧ f₁.poolSize = 2 ∧
      f.andPlane.bit 3 1 = true ∧ f₁.andPlane.bit 3 1 = true ∧
      f.orPlane.row 0 = [true, true, false] ∧ f₁.orPlane.row 0 = f.orPlane.row 0 := by
  intro a b g xs ys
  have h : assemble g (xs ++ ys) = .ok (ofPool g (.ofOutputs (xs ++ ys)) (xs ++ ys)) := by
    decide +kernel
  have hbit : (ofPool g (.ofOutputs (xs ++ ys)) (xs ++ ys)).andPlane.bit 3 1 = true := by
    decide +kernel
  obtain ⟨f₁, h₁, hsize, hcolumns, hrow⟩ := assemble_of_assemble_append h
  have hsize₁ : f₁.poolSize = 2 := by
    rw [poolSize_of_assemble h₁]
    decide +kernel
  have hbit₁ : f₁.andPlane.bit 3 1 = true :=
    (hcolumns 3 (by decide) 1 (hsize₁ ▸ by decide)).trans hbit
  exact ⟨_, f₁, h, h₁, by decide +kernel, hsize, hsize₁, hbit, hbit₁, by decide +kernel,
    hrow 0 (by decide)⟩

end ArrayLogic.FuseMap
