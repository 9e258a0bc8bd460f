import ArrayLogic.Proofs.Definitions.Agreement
import Mathlib.Data.Set.Card
import Mathlib.Order.Lattice.Nat

/-! # Selection of outputs

Which outputs are selected, or why there are none, depends on the set of the bound numbers alone:
the least number outside the device is reported before the least gap, and without either there is
one output for each number. The order in which the bindings are listed does not show.
-/

namespace ArrayLogic.Definitions

/-! ## Bound numbers -/

/-- The numbers of the outputs that are bound. -/
def boundOutputs (d : Definitions) : Set Nat :=
  {k | k < Text.indexBound ∧ (d.get? (Name.output k)).isSome = true}

variable {d : Definitions} {count : Nat}

theorem mem_boundOutputs {k : Nat} : k ∈ d.boundOutputs ↔ k ∈ d.outputIndices :=
  mem_outputIndices.symm

theorem isEmpty_outputIndices_iff : d.outputIndices.isEmpty = true ↔ d.boundOutputs = ∅ := by
  rw [List.isEmpty_iff, List.eq_nil_iff_forall_not_mem, Set.eq_empty_iff_forall_notMem]
  apply forall_congr'
  intro k
  rw [mem_boundOutputs]

theorem ncard_boundOutputs (d : Definitions) : d.boundOutputs.ncard = d.outputIndices.length := by
  have hset : d.boundOutputs = d.outputIndices.toFinset := by
    ext k
    rw [mem_boundOutputs, Finset.mem_coe, List.mem_toFinset]
  rw [hset, Set.ncard_coe_finset, List.toFinset_card_of_nodup d.nodup_outputIndices]

theorem ncard_boundOutputs_le (h : ∀ k ∈ d.boundOutputs, k < count) :
    d.boundOutputs.ncard ≤ count := by
  rw [ncard_boundOutputs]
  apply length_outputIndices_le
  intro k hk
  exact h k (mem_boundOutputs.mpr hk)

/-- If all numbers below `k` are bound and so is one above, there are more than `k` of them. -/
theorem lt_ncard_boundOutputs {k j : Nat} (hbelow : ∀ i < k, i ∈ d.boundOutputs)
    (hj : j ∈ d.boundOutputs) (hkj : k < j) : k < d.boundOutputs.ncard := by
  have hnodup : (j :: List.range k).Nodup := by
    rw [List.nodup_cons, List.mem_range]
    exact ⟨Nat.lt_asymm hkj, List.nodup_range⟩
  have hsubset : j :: List.range k ⊆ d.outputIndices := by
    apply List.cons_subset.mpr
    refine ⟨mem_boundOutputs.mp hj, ?_⟩
    intro i hi
    exact mem_boundOutputs.mp (hbelow i (List.mem_range.mp hi))
  have hlength := (List.subperm_of_subset hnodup hsubset).length_le
  rw [List.length_cons, List.length_range] at hlength
  rw [ncard_boundOutputs]
  exact hlength

/-! ## Answers -/

/-- The answer to a request for the outputs of a device, told from the bound numbers. -/
inductive Selection (d : Definitions) (count : Nat) : Except OutputError (List Output) → Prop
  | noOutputs (hnone : d.boundOutputs = ∅) : Selection d count (.error .noOutputs)
  | outOfRange {k : Nat} (hleast : IsLeast {k ∈ d.boundOutputs | count ≤ k} k) :
      Selection d count (.error (.outOfRange k count))
  | gap {k : Nat} (hinside : ∀ k ∈ d.boundOutputs, k < count)
      (hsegment : ¬ IsLowerSet d.boundOutputs) (hleast : IsLeast d.boundOutputsᶜ k) :
      Selection d count (.error (.gap k))
  | selected {os : List Output} (hsome : d.boundOutputs.Nonempty)
      (hinside : ∀ k ∈ d.boundOutputs, k < count) (hsegment : IsLowerSet d.boundOutputs)
      (hlength : os.length = d.boundOutputs.ncard)
      (hentries : ∀ i o, os[i]? = some o → o.name = Name.output i ∧ o.index = i ∧
        d.get? (Name.output i) = some o.formula) :
      Selection d count (.ok os)

theorem outputs_of_inside (hsome : d.boundOutputs.Nonempty)
    (hinside : ∀ k ∈ d.boundOutputs, k < count) :
    d.outputs count = (List.range d.boundOutputs.ncard).mapM d.output := by
  have hnonempty : ¬ d.outputIndices.isEmpty = true :=
    isEmpty_outputIndices_iff.not.mpr hsome.ne_empty
  have hnone : (d.outputIndices.filter (count ≤ ·)).min? = none := by
    rw [List.min?_eq_none_iff, List.filter_eq_nil_iff]
    intro k hk
    rw [decide_eq_true_iff, Nat.not_le]
    exact hinside k (mem_boundOutputs.mpr hk)
  rw [outputs, if_neg hnonempty, hnone, ncard_boundOutputs]

theorem exists_output_eq_ok {k : Nat} (h : k ∈ d.boundOutputs) : ∃ o, d.output k = .ok o := by
  obtain ⟨f, hf⟩ := Option.isSome_iff_exists.mp h.2
  exact ⟨⟨k, f⟩, output_eq_ok_iff.mpr ⟨rfl, hf⟩⟩

theorem output_eq_gap {k : Nat} (hk : k < Text.indexBound) (h : k ∉ d.boundOutputs) :
    d.output k = .error (.gap k) := by
  have hnone : d.get? (Name.output k) = none := by
    rw [← Option.not_isSome_iff_eq_none]
    exact fun hsome => h ⟨hk, hsome⟩
  rw [output, hnone]

/-- A set of numbers that is no initial segment has a member above its least gap. -/
theorem exists_lt_of_not_isLowerSet {s : Set Nat} (h : ¬ IsLowerSet s) {k : Nat}
    (hk : IsLeast sᶜ k) : ∃ j ∈ s, k < j := by
  by_contra hnone
  apply h
  intro j i hij hj
  by_contra hi
  apply hnone
  refine ⟨j, hj, Nat.lt_of_le_of_ne (Nat.le_trans (hk.2 hi) hij) ?_⟩
  rintro rfl
  exact hk.1 hj

theorem outputs_of_isLeast {k : Nat} (h : IsLeast {k ∈ d.boundOutputs | count ≤ k} k) :
    d.outputs count = .error (.outOfRange k count) := by
  have hsome : d.boundOutputs.Nonempty := ⟨k, h.1.1⟩
  have hmem (j : Nat) : j ∈ d.outputIndices.filter (count ≤ ·) ↔
      j ∈ {k ∈ d.boundOutputs | count ≤ k} := by
    rw [List.mem_filter, decide_eq_true_iff, ← mem_boundOutputs]
    rfl
  have hmin : (d.outputIndices.filter (count ≤ ·)).min? = some k := by
    apply List.min?_eq_some_iff.mpr
    exact ⟨(hmem k).mpr h.1, fun j hj => h.2 ((hmem j).mp hj)⟩
  rw [outputs, if_neg (isEmpty_outputIndices_iff.not.mpr hsome.ne_empty), hmin]

theorem outputs_of_gap {k : Nat} (hinside : ∀ k ∈ d.boundOutputs, k < count)
    (hsegment : ¬ IsLowerSet d.boundOutputs) (hleast : IsLeast d.boundOutputsᶜ k) :
    d.outputs count = .error (.gap k) := by
  have hbelow : ∀ i < k, i ∈ d.boundOutputs := by
    intro i hi
    by_contra hmissing
    exact Nat.not_le.mpr hi (hleast.2 hmissing)
  obtain ⟨j, hj, hkj⟩ := exists_lt_of_not_isLowerSet hsegment hleast
  have hgap : d.output k = .error (.gap k) := output_eq_gap (Nat.lt_trans hkj hj.1) hleast.1
  -- The gap is among the numbers that are tried, and those before it succeed.
  obtain ⟨n, hn⟩ := Nat.exists_eq_add_of_lt (lt_ncard_boundOutputs hbelow hj hkj)
  rw [outputs_of_inside ⟨j, hj⟩ hinside, hn, Nat.add_assoc, List.range_add,
    List.range_succ_eq_map, List.map_cons, Nat.add_zero]
  apply mapM_eq_error _ hgap
  intro i hi
  exact exists_output_eq_ok (hbelow i (List.mem_range.mp hi))

theorem outputs_of_entries {os : List Output} (hsome : d.boundOutputs.Nonempty)
    (hinside : ∀ k ∈ d.boundOutputs, k < count) (hlength : os.length = d.boundOutputs.ncard)
    (hentries : ∀ i o, os[i]? = some o → o.index = i ∧ d.get? (Name.output i) = some o.formula) :
    d.outputs count = .ok os := by
  rw [outputs_of_inside hsome hinside, ← hlength, mapM_eq_ok_iff, List.forall₂_iff_get]
  refine ⟨List.length_range, ?_⟩
  intro i _ hi
  rw [List.get_eq_getElem, List.getElem_range]
  exact output_eq_ok_iff.mpr (hentries i _ (List.getElem?_eq_getElem hi))

theorem Selection.outputs_eq {r : Except OutputError (List Output)} (h : d.Selection count r) :
    d.outputs count = r := by
  cases h with
  | noOutputs hnone => rw [outputs, if_pos (isEmpty_outputIndices_iff.mpr hnone)]
  | outOfRange hleast => exact outputs_of_isLeast hleast
  | gap hinside hsegment hleast => exact outputs_of_gap hinside hsegment hleast
  | selected hsome hinside _ hlength hentries =>
      exact outputs_of_entries hsome hinside hlength fun i o ho => (hentries i o ho).2

/-- In an initial segment, every number below the size is bound. -/
theorem mem_boundOutputs_of_lt_ncard (hsegment : IsLowerSet d.boundOutputs) {i : Nat}
    (hi : i < d.boundOutputs.ncard) : i ∈ d.boundOutputs := by
  by_contra hmissing
  apply Nat.not_le.mpr hi
  apply ncard_boundOutputs_le
  intro k hk
  by_contra hik
  exact hmissing (hsegment (Nat.not_lt.mp hik) hk)

theorem exists_selected (hsome : d.boundOutputs.Nonempty)
    (hinside : ∀ k ∈ d.boundOutputs, k < count) (hsegment : IsLowerSet d.boundOutputs) :
    ∃ os, d.Selection count (.ok os) := by
  have hbound (i : Fin d.boundOutputs.ncard) : ∃ f, d.get? (Name.output i) = some f :=
    Option.isSome_iff_exists.mp (mem_boundOutputs_of_lt_ncard hsegment i.2).2
  choose f hf using hbound
  refine ⟨List.ofFn fun i => ⟨i, f i⟩, ?_⟩
  apply Selection.selected hsome hinside hsegment List.length_ofFn
  intro i o ho
  obtain ⟨hi, rfl⟩ := List.getElem?_eq_some_iff.mp ho
  rw [List.length_ofFn] at hi
  rw [List.getElem_ofFn]
  exact ⟨rfl, rfl, hf ⟨i, hi⟩⟩

/-- One of the answers always applies. -/
theorem exists_selection (d : Definitions) (count : Nat) : ∃ r, d.Selection count r := by
  by_cases hout : {k ∈ d.boundOutputs | count ≤ k}.Nonempty
  · exact ⟨_, .outOfRange (isLeast_csInf hout)⟩
  have hinside : ∀ k ∈ d.boundOutputs, k < count := by
    intro k hk
    by_contra hcount
    exact hout ⟨k, hk, Nat.not_lt.mp hcount⟩
  by_cases hsegment : IsLowerSet d.boundOutputs
  · by_cases hsome : d.boundOutputs.Nonempty
    · obtain ⟨os, hos⟩ := exists_selected hsome hinside hsegment
      exact ⟨_, hos⟩
    · exact ⟨_, .noOutputs (Set.not_nonempty_iff_eq_empty.mp hsome)⟩
  · have hgap : d.boundOutputsᶜ.Nonempty := by
      rw [Set.nonempty_compl]
      intro hall
      exact hsegment (hall ▸ isLowerSet_univ)
    exact ⟨_, .gap hinside hsegment (isLeast_csInf hgap)⟩

theorem outputs_eq_iff {r : Except OutputError (List Output)} :
    d.outputs count = r ↔ d.Selection count r :=
  eq_iff_of_exists (d.exists_selection count) fun _ => Selection.outputs_eq

/-! ## Order of the bindings -/

/-- The same bindings, listed in another order. -/
def reordered (d : Definitions) (order : List (String × Formula)) (h : order.Perm d.bindings) :
    Definitions where
  inputs := d.inputs
  bindings := order
  distinct := (h.pairwise_iff Ne.symm).mpr d.distinct

/-- No name is bound twice, so a look-up finds the binding wherever it stands. -/
theorem get?_eq_some_iff {name : String} {f : Formula} :
    d.get? name = some f ↔ (name, f) ∈ d.bindings := by
  rw [get?, List.lookup_eq_some_iff]
  constructor
  · rintro ⟨front, back, hbindings, -⟩
    rw [hbindings]
    exact List.mem_append_right _ List.mem_cons_self
  · intro hmem
    obtain ⟨front, back, hbindings⟩ := List.append_of_mem hmem
    refine ⟨front, back, hbindings, ?_⟩
    intro binding hbinding
    have hdistinct := d.distinct
    rw [hbindings, List.pairwise_append] at hdistinct
    rw [bne_iff_ne]
    exact (hdistinct.2.2 binding hbinding _ List.mem_cons_self).symm

theorem agree_reordered (d : Definitions) {order : List (String × Formula)}
    (h : order.Perm d.bindings) : Agree (fun _ => True) (d.reordered order h) d := by
  refine ⟨rfl, ?_⟩
  intro name _
  ext f
  rw [get?_eq_some_iff, get?_eq_some_iff]
  exact h.mem_iff

/-- The answer is the one that the bound numbers call for, in whatever order the bindings are
listed. -/
theorem outputs_of_boundOutputs (d : Definitions) (count : Nat) :
    (∀ r, d.outputs count = r ↔ d.Selection count r) ∧
      ∀ (order : List (String × Formula)) (h : order.Perm d.bindings),
        (d.reordered order h).outputs count = d.outputs count :=
  ⟨fun _ => outputs_eq_iff, fun _ h => (d.agree_reordered h).outputs_eq (fun _ => trivial) count⟩

/-- A leading zero or a number that does not fit a word makes no output, and neither does a
temporary. One more output leaves a gap, unless the device is too small for it. -/
theorem outputs_of_boundOutputs_unordered :
    let input (k : Nat) : Formula := .lit ((Signal.ofIndex k).literal .direct)
    let bindings := [("O1", input 1), ("T0", input 2), ("O01", input 3),
      ("O18446744073709551616", input 4), ("O0", input 0)]
    let d := bindings.foldl (fun d binding => d.insert binding.1 binding.2) (empty 8)
    let wider := d.insert "O3" (input 5)
    let order := d.bindings.reverse
    let os : List Output := [⟨0, input 0⟩, ⟨1, input 1⟩]
    (∃ h : order.Perm d.bindings, (d.reordered order h).outputs 2 = .ok os) ∧
      d.Selection 2 (.ok os) ∧ wider.Selection 4 (.error (.gap 2)) ∧
      wider.Selection 3 (.error (.outOfRange 3 3)) := by
  intro input bindings d wider order os
  have hperm : order.Perm d.bindings := List.reverse_perm _
  have hos : d.outputs 2 = .ok os := by decide +kernel
  have hgap : wider.outputs 4 = .error (.gap 2) := by decide +kernel
  have hout : wider.outputs 3 = .error (.outOfRange 3 3) := by decide +kernel
  refine ⟨⟨hperm, ?_⟩, ?_, ?_, ?_⟩
  · rw [(outputs_of_boundOutputs d 2).2 order hperm, hos]
  · exact ((outputs_of_boundOutputs d 2).1 _).mp hos
  · exact ((outputs_of_boundOutputs wider 4).1 _).mp hgap
  · exact ((outputs_of_boundOutputs wider 3).1 _).mp hout

end ArrayLogic.Definitions
