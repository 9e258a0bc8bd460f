import ArrayLogic.FuseMap.Assembly
import ArrayLogic.Proofs.Traversal
import Mathlib.Data.Finset.Card
import Mathlib.Data.List.Induction

/-! # Columns of a term pool

The pool holds exactly the terms of the outputs, once each. A term and its column determine each
other, so the fuses of both planes can be told from the term of their column.
-/

namespace ArrayLogic.TermPool

variable {pool : TermPool} {t : Term}

theorem terms_insert :
    (pool.insert t).terms = pool.terms ++ if t ∈ pool.terms then [] else [t] := by
  unfold insert
  split
  next => rw [List.append_nil]
  next => rfl

/-- The pool lists the distinct terms of the outputs in the order of their first occurrence. -/
theorem terms_ofOutputs (outputs : List (List Term)) :
    (ofOutputs outputs).terms = outputs.flatten.eraseDups := by
  rw [ofOutputs]
  -- The last term of a list is the one that the pool meets last.
  induction outputs.flatten using List.reverseRecOn with
  | nil => rfl
  | append_singleton ts t ih =>
      rw [List.foldl_append, List.foldl_cons, List.foldl_nil, terms_insert, ih,
        List.eraseDups_append]
      by_cases ht : t ∈ ts
      · simp [ht, List.removeAll]
      · simp [ht, List.removeAll, List.eraseDups_cons]

theorem mem_ofOutputs {outputs : List (List Term)} :
    t ∈ (ofOutputs outputs).terms ↔ ∃ terms ∈ outputs, t ∈ terms := by
  rw [terms_ofOutputs, List.mem_eraseDups, List.mem_flatten]

/-- The pool takes as many columns as there are distinct terms. -/
theorem size_ofOutputs (outputs : List (List Term)) :
    (ofOutputs outputs).size = outputs.flatten.toFinset.card := by
  have hterms : (ofOutputs outputs).terms.toFinset = outputs.flatten.toFinset := by
    ext t
    rw [List.mem_toFinset, List.mem_toFinset, mem_ofOutputs, List.mem_flatten]
  rw [size, ← List.toFinset_card_of_nodup (ofOutputs outputs).distinct, hterms]

theorem lt_size_of_term? {column : Nat} (h : pool.term? column = some t) : column < pool.size :=
  (List.getElem?_eq_some_iff.mp h).1

theorem exists_term?_of_mem (h : t ∈ pool.terms) : ∃ column, pool.term? column = some t :=
  List.mem_iff_getElem?.mp h

theorem column?_eq_some_iff {column : Nat} :
    pool.column? t = some column ↔ pool.term? column = some t :=
  idxOf?_eq_some_iff_of_nodup pool.distinct

/-! ## More outputs -/

/-- Further outputs add columns behind those that exist. -/
theorem terms_ofOutputs_append (xs ys : List (List Term)) :
    (ofOutputs xs).terms <+: (ofOutputs (xs ++ ys)).terms := by
  rw [terms_ofOutputs, terms_ofOutputs, List.flatten_append, List.eraseDups_append]
  exact List.prefix_append _ _

theorem term?_ofOutputs_append {xs : List (List Term)} (ys : List (List Term)) {column : Nat}
    (h : column < (ofOutputs xs).size) :
    (ofOutputs (xs ++ ys)).term? column = (ofOutputs xs).term? column := by
  obtain ⟨added, hadded⟩ := terms_ofOutputs_append xs ys
  rw [term?, ← hadded, List.getElem?_append_left h, term?]

/-- A term of the first outputs keeps its column. -/
theorem term?_ofOutputs_append_iff {xs ys : List (List Term)} {column : Nat}
    (h : t ∈ (ofOutputs xs).terms) :
    (ofOutputs (xs ++ ys)).term? column = some t ↔ (ofOutputs xs).term? column = some t := by
  have hkept {k : Nat} (hk : (ofOutputs xs).term? k = some t) :
      (ofOutputs (xs ++ ys)).term? k = some t := by
    rw [term?_ofOutputs_append ys (lt_size_of_term? hk), hk]
  constructor
  · -- The term has a column among the first ones, and no other beside it.
    intro hcolumn
    obtain ⟨k, hk⟩ := exists_term?_of_mem h
    have hsame : some column = some k := by
      rw [← column?_eq_some_iff.mpr hcolumn, column?_eq_some_iff.mpr (hkept hk)]
    rw [Option.some.inj hsame, hk]
  · exact hkept

/-! ## Fuses -/

/-- An AND fuse stands for a literal of the term of its column. -/
theorem mem_andFuses {row column : Nat} : (row, column) ∈ pool.andFuses ↔
    ∃ t, pool.term? column = some t ∧ ∃ l ∈ t.literals, l.code = row := by
  simp only [andFuses, List.mem_flatMap, List.mem_map, Prod.mk.injEq]
  constructor
  · intro hparts
    obtain ⟨⟨t, k⟩, ht, l, hl, hrow, rfl⟩ := hparts
    exact ⟨t, List.mk_mem_zipIdx_iff_getElem?.mp ht, l, hl, hrow⟩
  · intro hparts
    obtain ⟨t, ht, l, hl, hrow⟩ := hparts
    exact ⟨(t, column), List.mk_mem_zipIdx_iff_getElem?.mpr ht, l, hl, hrow, rfl⟩

/-- An OR fuse stands for the term of its column in its output. -/
theorem mem_orFuses {outputs : List (List Term)} {row column : Nat} :
    (row, column) ∈ pool.orFuses outputs ↔
      ∃ terms t, outputs[row]? = some terms ∧ t ∈ terms ∧ pool.term? column = some t := by
  simp only [orFuses, List.mem_flatMap, List.mem_filterMap, Option.map_eq_some_iff, Prod.mk.injEq]
  constructor
  · intro hparts
    obtain ⟨⟨terms, i⟩, hterms, t, ht, k, hk, rfl, rfl⟩ := hparts
    exact ⟨terms, t, List.mk_mem_zipIdx_iff_getElem?.mp hterms, ht, column?_eq_some_iff.mp hk⟩
  · intro hparts
    obtain ⟨terms, t, hterms, ht, hcolumn⟩ := hparts
    exact ⟨(terms, row), List.mk_mem_zipIdx_iff_getElem?.mpr hterms, t, ht, column,
      column?_eq_some_iff.mpr hcolumn, rfl, rfl⟩

end ArrayLogic.TermPool
