import ArrayLogic.Formula

/-! # Support of a formula

The support lists the signals that occur in a formula in the order of their indices, each of them
once. The value of the formula depends on these signals and no others.
-/

namespace ArrayLogic

theorem Signal.eq_of_index_eq {s t : Signal} (h : s.index = t.index) : s = t := by
  rw [← ofIndex_index s, h, ofIndex_index]

namespace Signal

variable {s t : Signal} {signals : List Signal}

theorem mem_insertSorted : t ∈ s.insertSorted signals ↔ t = s ∨ t ∈ signals := by
  induction signals with
  | nil => simp [insertSorted]
  | cons first rest ih =>
      rw [insertSorted]
      split
      next => rw [List.mem_cons]
      next =>
        split
        next heq =>
          subst heq
          simp
        next => rw [List.mem_cons, ih, List.mem_cons, or_left_comm]

theorem pairwise_insertSorted (h : signals.Pairwise (·.index < ·.index)) :
    (s.insertSorted signals).Pairwise (·.index < ·.index) := by
  induction signals with
  | nil => exact List.pairwise_singleton _ s
  | cons first rest ih =>
      obtain ⟨hfirst, hrest⟩ := List.pairwise_cons.mp h
      rw [insertSorted]
      split
      next hlt =>
        refine List.pairwise_cons.mpr ⟨?_, h⟩
        intro t ht
        rcases List.mem_cons.mp ht with rfl | ht
        · exact hlt
        · exact Nat.lt_trans hlt (hfirst t ht)
      next hlt =>
        split
        next => exact h
        next hne =>
          refine List.pairwise_cons.mpr ⟨?_, ih hrest⟩
          intro t ht
          rcases mem_insertSorted.mp ht with rfl | ht
          · have hindex : t.index ≠ first.index := fun heq => hne (eq_of_index_eq heq)
            omega
          · exact hfirst t ht

end Signal

namespace Formula

/-- The signal occurs in the formula, in some polarity. -/
def Occurs (s : Signal) : Formula → Prop
  | const _ => False
  | lit l => l.signal = s
  | not f => f.Occurs s
  | and f g => f.Occurs s ∨ g.Occurs s
  | or f g => f.Occurs s ∨ g.Occurs s
  | xor f g => f.Occurs s ∨ g.Occurs s

variable {f : Formula} {s : Signal} {signals : List Signal}

theorem mem_addSignals : s ∈ f.addSignals signals ↔ f.Occurs s ∨ s ∈ signals := by
  induction f generalizing signals with
  | const value => rw [addSignals, Occurs, false_or]
  | lit l => rw [addSignals, Signal.mem_insertSorted, Occurs, eq_comm]
  | not f ih => exact ih
  | and f g ihf ihg | or f g ihf ihg | xor f g ihf ihg =>
      rw [addSignals, ihg, ihf, Occurs, or_left_comm, or_assoc]

theorem pairwise_addSignals (h : signals.Pairwise (·.index < ·.index)) :
    (f.addSignals signals).Pairwise (·.index < ·.index) := by
  induction f generalizing signals with
  | const value => exact h
  | lit l => exact Signal.pairwise_insertSorted h
  | not f ih => exact ih h
  | and f g ihf ihg | or f g ihf ihg | xor f g ihf ihg => exact ihg (ihf h)

/-- The support consists of the signals of the formula. -/
theorem mem_support : s ∈ f.support ↔ f.Occurs s := by
  rw [support, mem_addSignals, or_iff_left List.not_mem_nil]

theorem pairwise_support (f : Formula) : f.support.Pairwise (·.index < ·.index) :=
  pairwise_addSignals .nil

theorem nodup_support (f : Formula) : f.support.Nodup := by
  refine f.pairwise_support.imp ?_
  intro s t hlt heq
  exact Nat.ne_of_lt hlt (congrArg Signal.index heq)

/-- Assignments that agree on the signals of a formula give it the same value. -/
theorem eval_congr {v w : Assignment} (h : ∀ s, f.Occurs s → v s = w s) : f.eval v = f.eval w := by
  induction f with
  | const value => rfl
  | lit l => rw [eval, eval, Literal.eval, Literal.eval, h l.signal rfl]
  | not f ih => rw [eval, eval, ih h]
  | and f g ihf ihg | or f g ihf ihg | xor f g ihf ihg =>
      rw [eval, eval, ihf fun s hs => h s (.inl hs), ihg fun s hs => h s (.inr hs)]

end Formula

end ArrayLogic
