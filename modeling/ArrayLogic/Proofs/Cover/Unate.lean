import ArrayLogic.Proofs.Cover.Absorption

/-! # Unate covers

In a unate cover every signal occurs in one polarity only. The literals of a cube can then be made
true while all other literals of the cover are false, and under this assignment the cover is true
exactly if it absorbs the cube. What a unate cover absorbs is thus a matter of its values, so that
covers of the same function consist of the same cubes.
-/

namespace ArrayLogic

namespace Cube

/-! ## Critical assignments -/

/-- Among the literals of the given polarities, those of the cube hold and no other ones. -/
def critical (c : Cube) (polarity : Signal → Polarity) : Assignment := fun s =>
  (polarity s).apply (c.literals.contains (s.literal (polarity s)))

variable {polarity : Signal → Polarity}

theorem eval_critical (c : Cube) {l : Literal} (h : l.polarity = polarity l.signal) :
    l.eval (c.critical polarity) = c.literals.contains l := by
  have hliteral : l.signal.literal (polarity l.signal) = l := by
    rw [← h]
    rfl
  rw [Literal.eval, critical, h, Polarity.apply_apply, hliteral]

theorem eval_critical_iff {c other : Cube}
    (h : ∀ l ∈ other.literals, l.polarity = polarity l.signal) :
    other.eval (c.critical polarity) = true ↔ other.literals ⊆ c.literals := by
  rw [eval, List.all_eq_true]
  apply forall₂_congr
  intro l hl
  rw [c.eval_critical (h l hl), List.contains_iff_mem]

end Cube

namespace Cover

theorem eval_critical_iff {c : Cover} {polarity : Signal → Polarity}
    (h : ∀ cube ∈ c.cubes, ∀ l ∈ cube.literals, l.polarity = polarity l.signal) (cube : Cube) :
    c.eval (cube.critical polarity) = true ↔ c.Absorbs cube := by
  rw [eval, List.any_eq_true]
  apply exists_congr
  intro kept
  apply and_congr_right
  intro hkept
  exact Cube.eval_critical_iff (h kept hkept)

/-! ## Canonicity -/

/-- No signal occurs in both polarities among the cubes. -/
def Unate (cubes : List Cube) : Prop :=
  ∀ x ∈ cubes, ∀ y ∈ cubes, ∀ l ∈ x.literals, l.flip ∉ y.literals

instance (cubes : List Cube) : Decidable (Unate cubes) :=
  inferInstanceAs (Decidable (∀ x ∈ cubes, ∀ y ∈ cubes, ∀ l ∈ x.literals, l.flip ∉ y.literals))

/-- The polarity in which a signal occurs, if it occurs in one polarity only. -/
def polarityIn (cubes : List Cube) (s : Signal) : Polarity :=
  .complementIf (cubes.any fun cube => cube.literals.contains (s.literal .complement))

theorem Unate.polarity_eq {cubes : List Cube} (h : Unate cubes) :
    ∀ cube ∈ cubes, ∀ l ∈ cube.literals, l.polarity = polarityIn cubes l.signal := by
  intro cube hcube l hl
  rcases l with ⟨s, polarity⟩
  cases polarity with
  | direct =>
      have hnone : (cubes.any fun x => x.literals.contains (s.literal .complement)) = false := by
        rw [List.any_eq_false]
        intro other hother
        rw [List.contains_iff_mem]
        exact h cube hcube other hother _ hl
      rw [polarityIn, hnone]
      rfl
  | complement =>
      have hany : (cubes.any fun x => x.literals.contains (s.literal .complement)) = true := by
        rw [List.any_eq_true]
        exact ⟨cube, hcube, List.contains_iff_mem.mpr hl⟩
      rw [polarityIn, hany]
      rfl

/-- Two covers in which no signal occurs in both polarities have the same value under every
assignment exactly if they have the same cubes. -/
theorem eval_eq_iff_of_unate {a b : Cover} (ha : a.Reachable) (hb : b.Reachable)
    (h : Unate (a.cubes ++ b.cubes)) :
    (∀ v, a.eval v = b.eval v) ↔ ∀ cube, cube ∈ a.cubes ↔ cube ∈ b.cubes := by
  constructor
  · intro hvalue
    -- One assignment is critical for a cube in both covers, because they share the polarities.
    obtain ⟨hpolarity, hpolarity'⟩ := List.forall_mem_append.mp h.polarity_eq
    have habsorbs : ∀ cube : Cube, cube.Ordered → (a.Absorbs cube ↔ b.Absorbs cube) := by
      intro cube _
      rw [← eval_critical_iff hpolarity, ← eval_critical_iff hpolarity', hvalue]
    intro cube
    exact (ha.reduced.perm_of_absorbs hb.reduced habsorbs).mem_iff
  · intro hcubes v
    rw [Bool.eq_iff_iff, eval, eval, List.any_eq_true, List.any_eq_true]
    apply exists_congr
    intro cube
    rw [hcubes]

/-- A product distributed over a sum has the cubes of the sum of two products, in another order. -/
theorem eval_eq_iff_of_unate_distributed :
    let lit (k : Nat) (p : Polarity) : Literal := (Signal.ofIndex k).literal p
    let x := ofLiteral (lit 0 .direct)
    let y := ofLiteral (lit 1 .complement)
    let z := ofLiteral (lit 2 .direct)
    let a := (x.and y).or (x.and z)
    let b := (z.or y).and x
    a.Reachable ∧ b.Reachable ∧ Unate (a.cubes ++ b.cubes) ∧ a.cubes ≠ b.cubes ∧
      (∀ v, a.eval v = b.eval v) ∧ ∀ cube, cube ∈ a.cubes ↔ cube ∈ b.cubes := by
  intro lit x y z a b
  have ha : a.Reachable :=
    .or (.and (.ofLiteral _) (.ofLiteral _)) (.and (.ofLiteral _) (.ofLiteral _))
  have hb : b.Reachable := .and (.or (.ofLiteral _) (.ofLiteral _)) (.ofLiteral _)
  have hunate : Unate (a.cubes ++ b.cubes) := by decide
  have hvalue : ∀ v, a.eval v = b.eval v := by
    intro v
    rw [eval_or, eval_and, eval_and, eval_and, eval_or, ← Bool.and_or_distrib_left, Bool.or_comm,
      Bool.and_comm]
  exact ⟨ha, hb, hunate, by decide, hvalue, (eval_eq_iff_of_unate ha hb hunate).mp hvalue⟩

end Cover

end ArrayLogic
