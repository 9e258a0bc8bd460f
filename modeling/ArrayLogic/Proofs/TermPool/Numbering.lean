import ArrayLogic.Proofs.TermPool

/-! # Numbering by first occurrence

Terms are given to the pool one after the other, and a new one gets the next column. After any
number of terms the columns stand in the order in which the terms first occurred.
-/

namespace ArrayLogic.TermPool

variable {pool : TermPool} {ts : List Term}

/-- The pool holds the terms of the sequence, in the order in which they first occur there. -/
structure Numbers (pool : TermPool) (ts : List Term) : Prop where
  mem_iff (t : Term) : t ∈ pool.terms ↔ t ∈ ts
  ordered : pool.terms.Pairwise fun s t => ts.idxOf s < ts.idxOf t

namespace Numbers

theorem empty : TermPool.empty.Numbers [] :=
  ⟨fun _ => Iff.rfl, .nil⟩

theorem insert (h : pool.Numbers ts) (t : Term) : (pool.insert t).Numbers (ts ++ [t]) := by
  -- The first occurrences of the terms before stay where they are.
  have hplace (s : Term) (hs : s ∈ pool.terms) : (ts ++ [t]).idxOf s = ts.idxOf s :=
    List.idxOf_append_of_mem ((h.mem_iff s).mp hs)
  have hkept : pool.terms.Pairwise fun a b => (ts ++ [t]).idxOf a < (ts ++ [t]).idxOf b := by
    refine h.ordered.imp_of_mem ?_
    intro a b ha hb hlt
    rwa [hplace a ha, hplace b hb]
  by_cases ht : t ∈ pool.terms
  · have hterms : (pool.insert t).terms = pool.terms := by
      rw [terms_insert, if_pos ht, List.append_nil]
    refine ⟨?_, hterms ▸ hkept⟩
    intro s
    have hold : s = t → s ∈ ts := fun heq => heq ▸ (h.mem_iff t).mp ht
    rw [hterms, h.mem_iff, List.mem_append, List.mem_singleton, or_iff_left_of_imp hold]
  · have hterms : (pool.insert t).terms = pool.terms ++ [t] := by
      rw [terms_insert, if_neg ht]
    rw [h.mem_iff] at ht
    refine ⟨?_, ?_⟩
    · intro s
      rw [hterms, List.mem_append, List.mem_append, h.mem_iff]
    · rw [hterms]
      refine List.pairwise_append.mpr ⟨hkept, List.pairwise_singleton _ t, ?_⟩
      intro s hs b hb
      obtain rfl := List.mem_singleton.mp hb
      have hbefore : ts.idxOf s < ts.length := List.idxOf_lt_length_of_mem ((h.mem_iff s).mp hs)
      rw [hplace s hs, List.idxOf_append_of_notMem ht]
      omega

theorem foldl_insert (h : pool.Numbers ts) (us : List Term) :
    (us.foldl TermPool.insert pool).Numbers (ts ++ us) := by
  induction us generalizing pool ts with
  | nil => rwa [List.append_nil]
  | cons u us ih =>
      rw [List.append_cons]
      exact ih (h.insert u)

end Numbers

theorem numbers_ofOutputs (outputs : List (List Term)) :
    (ofOutputs outputs).Numbers outputs.flatten :=
  Numbers.empty.foldl_insert outputs.flatten

theorem column?_eq_none_iff {t : Term} : pool.column? t = none ↔ t ∉ pool.terms :=
  List.idxOf?_eq_none_iff

/-- Two terms share a column if they are one term of the pool. -/
theorem share_column_iff {s t : Term} :
    (∃ column, pool.column? s = some column ∧ pool.column? t = some column) ↔
      s ∈ pool.terms ∧ s.literals = t.literals := by
  constructor
  · intro hparts
    obtain ⟨column, hs, ht⟩ := hparts
    rw [column?_eq_some_iff] at hs ht
    have heq : s = t := Option.some.inj (hs.symm.trans ht)
    exact ⟨List.mem_iff_getElem?.mpr ⟨column, hs⟩, congrArg Term.literals heq⟩
  · intro hparts
    obtain ⟨hs, hliterals⟩ := hparts
    obtain rfl : s = t := congrArg Term.mk hliterals
    obtain ⟨column, hcolumn⟩ := exists_term?_of_mem hs
    exact ⟨column, column?_eq_some_iff.mpr hcolumn, column?_eq_some_iff.mpr hcolumn⟩

/-- The pool numbers the distinct terms of the outputs by first occurrence. Every term of an output
stands in it once and no other term does, the terms stand in the order of their first places in the
concatenation of the outputs, a column and its term determine each other, the terms without a column
are those of no output, and terms share a column only with the same literals in the same order. -/
theorem ofOutputs_numbers_first_occurrences (outputs : List (List Term)) :
    (∀ t, (ofOutputs outputs).terms.count t = if t ∈ outputs.flatten then 1 else 0) ∧
      ((ofOutputs outputs).terms.Pairwise fun s t =>
        outputs.flatten.idxOf s < outputs.flatten.idxOf t) ∧
      (∀ t column, (ofOutputs outputs).column? t = some column ↔
        (ofOutputs outputs).term? column = some t) ∧
      (∀ t, (ofOutputs outputs).column? t = none ↔ ∀ terms ∈ outputs, t ∉ terms) ∧
      ∀ s t, (∃ column, (ofOutputs outputs).column? s = some column ∧
          (ofOutputs outputs).column? t = some column) ↔
        (∃ terms ∈ outputs, s ∈ terms) ∧ s.literals = t.literals := by
  have hnumbers := numbers_ofOutputs outputs
  refine ⟨?_, hnumbers.ordered, fun _ _ => column?_eq_some_iff, ?_, ?_⟩
  · intro t
    rw [(ofOutputs outputs).distinct.count]
    simp only [hnumbers.mem_iff]
  · intro t
    rw [column?_eq_none_iff, mem_ofOutputs]
    simp only [not_exists, not_and]
  · intro s t
    rw [share_column_iff, mem_ofOutputs]

end ArrayLogic.TermPool
