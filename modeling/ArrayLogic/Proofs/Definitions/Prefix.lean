import ArrayLogic.Proofs.Definitions.Execution

/-! # Prefixes of equations

Equations can be cut in two at any place: the second part is defined on top of what the first part
defines. In between, every bound formula has the value that executing the first part assigns to its
name. The second part binds the names of its own equations only, so a formula is never touched by
a redefinition of a name that it was read from.
-/

namespace ArrayLogic.Definitions

/-- Equations are defined one part after the other. -/
theorem defineAll_append_eq_iff {d last : Definitions} {front back : List Equation} :
    d.defineAll (front ++ back) = (last, none) ↔
      ∃ middle, d.defineAll front = (middle, none) ∧ middle.defineAll back = (last, none) := by
  induction front generalizing d with
  | nil => simp [defineAll]
  | cons e front ih =>
      rw [List.cons_append, defineAll, defineAll]
      cases d.define e with
      | ok next => exact ih
      | error cause => simp

/-! ## Names -/

/-- A definition binds its own name and no other one. -/
theorem get?_of_define {d next : Definitions} {e : Equation} (h : d.define e = .ok next) :
    (next.get? e.name).isSome = true ∧ ∀ name, name ≠ e.name → next.get? name = d.get? name := by
  obtain ⟨f, -, rfl⟩ := define_eq_ok_iff.mp h
  constructor
  · simp [get?_insert]
  · intro name hname
    rw [get?_insert, if_neg hname]

/-- A name keeps its formula until an equation defines it, also if one of the others fails. -/
theorem get?_of_defineAll {d last : Definitions} {es : List Equation}
    {failure : Option EquationError} (h : d.defineAll es = (last, failure)) {name : String}
    (hname : ∀ e ∈ es, e.name ≠ name) : last.get? name = d.get? name := by
  induction es generalizing d with
  | nil =>
      obtain rfl : d = last := congrArg Prod.fst h
      rfl
  | cons e es ih =>
      obtain ⟨hhead, hrest⟩ := List.forall_mem_cons.mp hname
      rw [defineAll] at h
      split at h
      next next hnext => rw [ih h hrest, (get?_of_define hnext).2 name hhead.symm]
      next =>
        obtain rfl : d = last := congrArg Prod.fst h
        rfl

/-- The bound names are those of the equations. -/
theorem isSome_get?_of_defineAll {d last : Definitions} {es : List Equation}
    (h : d.defineAll es = (last, none)) (name : String) :
    (last.get? name).isSome = true ↔
      (d.get? name).isSome = true ∨ ∃ e ∈ es, e.name = name := by
  induction es generalizing d with
  | nil =>
      obtain rfl : d = last := congrArg Prod.fst h
      simp
  | cons e es ih =>
      obtain ⟨next, hnext, h⟩ := defineAll_cons_eq_iff.mp h
      obtain ⟨hself, hother⟩ := get?_of_define hnext
      rw [ih h, List.exists_mem_cons_iff, ← or_assoc]
      apply or_congr_left
      by_cases hname : e.name = name
      · simp [← hname, hself]
      · simp [hname, hother name (Ne.symm hname)]

/-! ## Values -/

/-- Every prefix of the equations binds its names to formulas with the values that executing the
prefix assigns to them, and it binds no other name. A name that no later equation defines keeps its
formula, and with it its value, whatever becomes of the names that the formula was read from. -/
theorem defineAll_prefix_executes {inputs : Nat} (hinputs : inputs ≤ Nat.pow 2 63)
    {front back : List Equation} {last : Definitions}
    (h : (empty inputs).defineAll (front ++ back) = (last, none)) :
    ∃ d, (empty inputs).defineAll front = (d, none) ∧ d.defineAll back = (last, none) ∧
      (∀ v, ∃ σ, (∀ τ, Store.Executes inputs v .empty front τ ↔ τ = σ) ∧
        (∀ e ∈ front, ∃ f, d.get? e.name = some f ∧ σ e.name = some (f.eval v)) ∧
        ∀ name, (∀ e ∈ front, e.name ≠ name) → d.get? name = none ∧ σ name = none) ∧
      ∀ name, (∀ e ∈ back, e.name ≠ name) → last.get? name = d.get? name := by
  obtain ⟨d, hfront, hback⟩ := defineAll_append_eq_iff.mp h
  have hbound : (empty inputs).inputs ≤ Text.indexBound := Nat.le_trans hinputs (by decide)
  refine ⟨d, hfront, hback, ?_, fun name hname => get?_of_defineAll hback hname⟩
  intro v
  refine ⟨d.store v, ?_, ?_, ?_⟩
  · intro τ
    rw [← store_empty inputs v]
    exact executes_iff_of_defineAll hbound hfront
  · intro e he
    have hsome := (isSome_get?_of_defineAll hfront e.name).mpr (.inr ⟨e, he, rfl⟩)
    obtain ⟨f, hf⟩ := Option.isSome_iff_exists.mp hsome
    exact ⟨f, hf, by rw [store, hf, Option.map_some]⟩
  · intro name hname
    have hnone : d.get? name = none := get?_of_defineAll hfront hname
    exact ⟨hnone, by rw [store, hnone, Option.map_none]⟩

/-- A temporary is redefined from itself after an output has used it. The output keeps the product
that it was read as. -/
theorem defineAll_prefix_executes_redefined_temporary :
    let front : List Equation := [⟨"T0", "I0", 1⟩, ⟨"O0", "T0 & I1", 2⟩]
    let back : List Equation := [⟨"T0", "~T0 | O0", 3⟩]
    let first : Formula := .lit ((Signal.ofIndex 0).literal .direct)
    let product : Formula := first.and (.lit ((Signal.ofIndex 1).literal .direct))
    let middle := ((empty 2).insert "T0" first).insert "O0" product
    let last := middle.insert "T0" (first.not.or product)
    let v : Assignment := fun s => s.index == 1
    2 ≤ Nat.pow 2 63 ∧ (empty 2).defineAll (front ++ back) = (last, none) ∧
      (∃ σ, Store.Executes 2 v .empty front σ ∧ σ "T0" = some false ∧ σ "O0" = some false ∧
        σ "T1" = none) ∧
      last.get? "O0" = some product := by
  intro front back first product middle last v
  have hinputs : 2 ≤ Nat.pow 2 63 := by decide
  have h : (empty 2).defineAll (front ++ back) = (last, none) := by decide +kernel
  have hmiddle : (empty 2).defineAll front = (middle, none) := by decide +kernel
  obtain ⟨d, hfront, -, hvalues, hkept⟩ := defineAll_prefix_executes hinputs h
  obtain rfl : middle = d := congrArg Prod.fst (hmiddle.symm.trans hfront)
  obtain ⟨σ, hexecutes, hbound, hunbound⟩ := hvalues v
  refine ⟨hinputs, h, ⟨σ, (hexecutes σ).mpr rfl, ?_, ?_, ?_⟩, hkept "O0" (by decide)⟩
  · obtain ⟨f, hf, hvalue⟩ := hbound ⟨"T0", "I0", 1⟩ (by decide)
    obtain rfl : first = f := Option.some.inj hf
    exact hvalue
  · obtain ⟨f, hf, hvalue⟩ := hbound ⟨"O0", "T0 & I1", 2⟩ (by decide)
    obtain rfl : product = f := Option.some.inj hf
    exact hvalue
  · exact (hunbound "T1" (by decide)).2

end ArrayLogic.Definitions
