import ArrayLogic.Definitions
import ArrayLogic.Proofs.Name
import ArrayLogic.Proofs.Traversal
import Mathlib.Data.List.Perm.Subperm

/-! # Selected outputs

The selected outputs are numbered from zero in order, are bound, and exist in the device.
-/

namespace ArrayLogic.Definitions

theorem nodup_outputIndices (d : Definitions) : d.outputIndices.Nodup := by
  refine List.pairwise_filterMap.mpr (d.distinct.imp ?_)
  intro a b hne i hi j hj heq
  obtain ⟨ha, -⟩ := Name.outputIndex?_eq_some_iff.mp hi
  obtain ⟨hb, -⟩ := Name.outputIndex?_eq_some_iff.mp hj
  exact hne (by rw [ha, hb, heq])

theorem length_outputIndices_le {d : Definitions} {count : Nat}
    (h : ∀ i ∈ d.outputIndices, i < count) : d.outputIndices.length ≤ count := by
  have hsubset : d.outputIndices ⊆ List.range count := fun i hi => List.mem_range.mpr (h i hi)
  calc d.outputIndices.length
      ≤ (List.range count).length := (d.nodup_outputIndices.subperm hsubset).length_le
    _ = count := List.length_range

theorem output_eq_ok_iff {d : Definitions} {index : Nat} {o : Output} :
    d.output index = .ok o ↔ o.index = index ∧ d.get? (Name.output index) = some o.formula := by
  rcases o with ⟨i, f⟩
  unfold output
  cases d.get? (Name.output index) with
  | none => simp
  | some g => simp [eq_comm]

/-- The selection of outputs for a device. -/
structure Selected (d : Definitions) (count : Nat) (os : List Output) : Prop where
  length_le : os.length ≤ count
  bound : ∀ i o, os[i]? = some o → o.index = i ∧ d.get? (Name.output i) = some o.formula

theorem selected_of_outputs {d : Definitions} {count : Nat} {os : List Output}
    (h : d.outputs count = .ok os) : d.Selected count os := by
  unfold outputs at h
  split at h
  · simp at h
  split at h
  · simp at h
  next hmin =>
    have hpairs := mapM_eq_ok_iff.mp h
    -- No number is reported, so none is outside the device.
    have hinside : ∀ i ∈ d.outputIndices, i < count := by
      intro i hi
      have hnone := List.min?_eq_none_iff.mp hmin
      simpa using List.filter_eq_nil_iff.mp hnone i hi
    constructor
    · have hlength := hpairs.length_eq
      rw [List.length_range] at hlength
      exact hlength ▸ length_outputIndices_le hinside
    · intro i o ho
      obtain ⟨hi, rfl⟩ := List.getElem?_eq_some_iff.mp ho
      have houtput := hpairs.get (hpairs.length_eq ▸ hi) hi
      rw [List.get_eq_getElem, List.getElem_range] at houtput
      exact output_eq_ok_iff.mp houtput

end ArrayLogic.Definitions
