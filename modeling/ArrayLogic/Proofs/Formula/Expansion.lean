import ArrayLogic.Formula.Expansion
import ArrayLogic.Proofs.Cover

/-! # Meaning and origin of an expansion

The cover of a formula computes the formula, the cover of its negation computes the negation, and
neither holds a literal that the formula does not. All three statements are about both covers at
once, since a negation exchanges them and an exclusive or needs both.
-/

namespace ArrayLogic.Formula

/-- The cover in either polarity computes the formula in that polarity. -/
theorem eval_cover (f : Formula) (negated : Bool) (v : Assignment) :
    (f.cover negated).eval v = (f.eval v ^^ negated) := by
  induction f generalizing negated with
  | const value =>
      cases value <;> cases negated <;>
        simp [cover, eval, Cover.eval, Cover.one, Cover.zero, Cube.eval, Cube.empty]
  | lit l => simp [cover, eval, Cover.eval, Cover.ofLiteral, Cube.eval, Cube.ofLiteral]
  | not f ih =>
      rw [cover, ih, eval]
      cases negated <;> cases f.eval v <;> rfl
  | and f g ihf ihg =>
      -- The negated conjunction is expanded as the disjunction of the negations.
      cases negated
      · rw [cover, Cover.eval_and, ihf, ihg, eval]
        simp
      · rw [cover, Cover.eval_or, ihf, ihg, eval]
        simp
  | or f g ihf ihg =>
      cases negated
      · rw [cover, Cover.eval_or, ihf, ihg, eval]
        simp
      · rw [cover, Cover.eval_and, ihf, ihg, eval]
        simp
  | xor f g ihf ihg =>
      rw [cover_xor, Cover.eval_or, Cover.eval_and, Cover.eval_and, ihf, ihf, ihg, ihg, eval]
      cases f.eval v <;> cases g.eval v <;> cases negated <;> rfl

/-- Expansion preserves the value of a formula under every assignment, and so does the expansion of
the negation, for the formula itself and hence for every formula inside it. -/
theorem eval_toCover_eq_eval (f : Formula) (v : Assignment) :
    f.toCover.eval v = f.eval v ∧
      ∀ negated : Bool, (f.cover negated).eval v = (f.eval v ^^ negated) := by
  refine ⟨?_, fun negated => eval_cover f negated v⟩
  rw [toCover, eval_cover, Bool.xor_false]

theorem reachable_cover (f : Formula) (negated : Bool) : (f.cover negated).Reachable := by
  induction f generalizing negated with
  | const value =>
      rw [cover]
      split
      · exact .one
      · exact .zero
  | lit l => exact .ofLiteral _
  | not f ih => exact ih _
  | and f g ihf ihg =>
      cases negated
      · exact .and (ihf _) (ihg _)
      · exact .or (ihf _) (ihg _)
  | or f g ihf ihg =>
      cases negated
      · exact .or (ihf _) (ihg _)
      · exact .and (ihf _) (ihg _)
  | xor f g ihf ihg =>
      rw [cover_xor]
      exact .or (.and (ihf _) (ihg _)) (.and (ihf _) (ihg _))

/-! ## Literals -/

/-- The literals that a formula, or its negation, asks for. A negation inverts the polarities below
it, and an exclusive or asks for both. -/
def demanded : Formula → (negated : Bool) → List Literal
  | const _, _ => []
  | lit l, negated => [l.flipIf negated]
  | not f, negated => f.demanded !negated
  | and f g, negated => f.demanded negated ++ g.demanded negated
  | or f g, negated => f.demanded negated ++ g.demanded negated
  | xor f g, _ => f.demanded false ++ f.demanded true ++ (g.demanded false ++ g.demanded true)

/-- Expansion introduces no literal. -/
theorem mem_demanded_of_mentions {f : Formula} {negated : Bool} {l : Literal}
    (h : (f.cover negated).Mentions l) : l ∈ f.demanded negated := by
  induction f generalizing negated with
  | const value =>
      obtain ⟨cube, hcube, hl⟩ := h
      rw [cover] at hcube
      split at hcube
      · obtain rfl := List.mem_singleton.mp hcube
        exact absurd hl List.not_mem_nil
      · exact absurd hcube List.not_mem_nil
  | lit k => exact List.mem_singleton.mpr (Cover.mentions_ofLiteral h)
  | not f ih => exact ih h
  | and f g ihf ihg =>
      have hparts : (f.cover negated).Mentions l ∨ (g.cover negated).Mentions l := by
        cases negated
        · exact Cover.mentions_and h
        · exact Cover.mentions_or h
      exact List.mem_append.mpr (hparts.imp ihf ihg)
  | or f g ihf ihg =>
      have hparts : (f.cover negated).Mentions l ∨ (g.cover negated).Mentions l := by
        cases negated
        · exact Cover.mentions_or h
        · exact Cover.mentions_and h
      exact List.mem_append.mpr (hparts.imp ihf ihg)
  | xor f g ihf ihg =>
      have hf (inner : Bool) (hl : (f.cover inner).Mentions l) :
          l ∈ f.demanded false ++ f.demanded true := by
        cases inner
        · exact List.mem_append_left _ (ihf hl)
        · exact List.mem_append_right _ (ihf hl)
      have hg (inner : Bool) (hl : (g.cover inner).Mentions l) :
          l ∈ g.demanded false ++ g.demanded true := by
        cases inner
        · exact List.mem_append_left _ (ihg hl)
        · exact List.mem_append_right _ (ihg hl)
      rw [cover_xor] at h
      rcases Cover.mentions_or h with h | h
      · exact List.mem_append.mpr ((Cover.mentions_and h).imp (hf _) (hg _))
      · exact List.mem_append.mpr ((Cover.mentions_and h).imp (hf _) (hg _))

/-- Every literal of the formula satisfies the condition. -/
def All (p : Literal → Prop) : Formula → Prop
  | const _ => True
  | lit l => p l
  | not f => f.All p
  | and f g => f.All p ∧ g.All p
  | or f g => f.All p ∧ g.All p
  | xor f g => f.All p ∧ g.All p

/-- What a formula demands are its own signals. -/
theorem All.index_lt_of_mem_demanded {f : Formula} {n : Nat} (h : f.All (·.index < n))
    {negated : Bool} {l : Literal} (hl : l ∈ f.demanded negated) : l.index < n := by
  induction f generalizing negated with
  | const value => exact absurd hl List.not_mem_nil
  | lit k =>
      obtain rfl := List.mem_singleton.mp hl
      exact h
  | not f ih => exact ih h hl
  | and f g ihf ihg =>
      rcases List.mem_append.mp hl with hl | hl
      · exact ihf h.1 hl
      · exact ihg h.2 hl
  | or f g ihf ihg =>
      rcases List.mem_append.mp hl with hl | hl
      · exact ihf h.1 hl
      · exact ihg h.2 hl
  | xor f g ihf ihg =>
      rcases List.mem_append.mp hl with hl | hl
      · rcases List.mem_append.mp hl with hl | hl
        · exact ihf h.1 hl
        · exact ihf h.1 hl
      · rcases List.mem_append.mp hl with hl | hl
        · exact ihg h.2 hl
        · exact ihg h.2 hl

end ArrayLogic.Formula
