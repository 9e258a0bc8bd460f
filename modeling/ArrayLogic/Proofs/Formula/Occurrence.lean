import ArrayLogic.Proofs.Formula.Expansion
import ArrayLogic.Proofs.Formula.Support
import Mathlib.Logic.Basic

/-! # Occurrences of literals

A literal of a cover stands somewhere in the formula that was expanded. The number of negations
above that place decides in which polarity it gets into the cover, except below an exclusive or,
which sends it there in both.
-/

namespace ArrayLogic.Formula

/-- A literal in a formula, together with what stands above it. -/
structure Occurrence where
  literal : Literal
  negations : Nat
  belowXor : Bool
deriving DecidableEq

namespace Occurrence

variable {o : Occurrence} {l : Literal}

/-- The occurrence below one more negation. -/
def negate (o : Occurrence) : Occurrence :=
  { o with negations := o.negations + 1 }

def negateIf (condition : Bool) (o : Occurrence) : Occurrence :=
  if condition then o.negate else o

@[simp] theorem negateIf_false (o : Occurrence) : o.negateIf false = o :=
  rfl

@[simp] theorem negateIf_true (o : Occurrence) : o.negateIf true = o.negate :=
  rfl

/-- The occurrence below an exclusive or. -/
def enterXor (o : Occurrence) : Occurrence :=
  { o with belowXor := true }

/-- The literals that may come of the occurrence. Below an exclusive or these are both polarities;
elsewhere an even number of negations keeps the polarity, and an odd number inverts it. -/
def contributed (o : Occurrence) : List Literal :=
  if o.belowXor then [o.literal, o.literal.flip]
  else if o.negations % 2 = 0 then [o.literal]
  else [o.literal.flip]

theorem signal_eq_of_mem_contributed (h : l ∈ o.contributed) : l.signal = o.literal.signal := by
  have hpolarities : l = o.literal ∨ l = o.literal.flip := by
    unfold contributed at h
    split at h
    · simpa using h
    · split at h
      · exact .inl (List.mem_singleton.mp h)
      · exact .inr (List.mem_singleton.mp h)
  rcases hpolarities with rfl | rfl
  · rfl
  · rfl

theorem contributed_negate_negate (o : Occurrence) :
    o.negate.negate.contributed = o.contributed := by
  simp only [contributed, negate, Nat.add_assoc, Nat.add_mod_right]

/-- An exclusive or uses its operands both as they are and negated. -/
theorem mem_contributed_enterXor :
    l ∈ o.enterXor.contributed ↔ l ∈ o.contributed ∨ l ∈ o.negate.contributed := by
  rcases o with ⟨k, negations, belowXor⟩
  cases belowXor
  · rcases Nat.mod_two_eq_zero_or_one negations with heven | hodd
    · have hnext : (negations + 1) % 2 ≠ 0 := by omega
      simp [contributed, enterXor, negate, heven, hnext]
    · have hnext : (negations + 1) % 2 = 0 := by omega
      simp [contributed, enterXor, negate, hodd, hnext, or_comm]
  · simp [contributed, enterXor, negate]

theorem contributed_negateIf_enterXor (condition : Bool) (o : Occurrence) :
    (o.enterXor.negateIf condition).contributed = o.enterXor.contributed := by
  cases condition <;> rfl

end Occurrence

/-- The occurrences of literals in the formula, from left to right. -/
def occurrences : Formula → List Occurrence
  | const _ => []
  | lit l => [⟨l, 0, false⟩]
  | not f => f.occurrences.map .negate
  | and f g => f.occurrences ++ g.occurrences
  | or f g => f.occurrences ++ g.occurrences
  | xor f g => (f.occurrences ++ g.occurrences).map .enterXor

variable {f : Formula}

theorem occurs_iff_exists_occurrence {s : Signal} :
    f.Occurs s ↔ ∃ o ∈ f.occurrences, o.literal.signal = s := by
  induction f with
  | const value => simp [Occurs, occurrences]
  | lit l => simp [Occurs, occurrences]
  | not f ih => simp [Occurs, occurrences, ih, Occurrence.negate]
  | and f g ihf ihg | or f g ihf ihg =>
      simp [Occurs, occurrences, ihf, ihg, or_and_right, exists_or]
  | xor f g ihf ihg =>
      simp [Occurs, occurrences, ihf, ihg, or_and_right, exists_or, Occurrence.enterXor]

/-- A formula asks for what its occurrences contribute, and its negation asks for what they
contribute below one more negation. -/
theorem mem_demanded_iff_exists_occurrence {negated : Bool} {l : Literal} :
    l ∈ f.demanded negated ↔ ∃ o ∈ f.occurrences, l ∈ (o.negateIf negated).contributed := by
  induction f generalizing negated with
  | const value => simp [demanded, occurrences]
  | lit k =>
      cases negated
      · simp [demanded, occurrences, Occurrence.contributed, Literal.flipIf, Polarity.flipIf_false]
      · have hflip : k.flipIf true = k.flip := rfl
        simp [demanded, occurrences, Occurrence.contributed, Occurrence.negate, hflip]
  | not f ih =>
      rw [demanded, ih]
      cases negated
      · simp [occurrences]
      · simp [occurrences, Occurrence.contributed_negate_negate]
  | and f g ihf ihg | or f g ihf ihg =>
      simp [demanded, occurrences, ihf, ihg, or_and_right, exists_or]
  | xor f g ihf ihg =>
      -- Each operand is asked for in both polarities, whether the result is negated or not.
      simp only [demanded, List.mem_append, ihf, ihg, occurrences, List.mem_map,
        exists_exists_and_eq_and, Occurrence.contributed_negateIf_enterXor,
        Occurrence.mem_contributed_enterXor, Occurrence.negateIf_false, Occurrence.negateIf_true,
        or_and_right, and_or_left, exists_or]

/-- Expansion introduces no literal: each literal of a cube comes from an occurrence in the formula,
in a polarity that this occurrence contributes, and its signal is in the support. -/
theorem toCover_literals_contributed (f : Formula) {cube : Cube} (hcube : cube ∈ f.toCover.cubes)
    {l : Literal} (hl : l ∈ cube.literals) :
    (∃ o ∈ f.occurrences, l ∈ o.contributed) ∧ l.signal ∈ f.support := by
  have hdemanded : l ∈ f.demanded false := mem_demanded_of_mentions ⟨cube, hcube, hl⟩
  obtain ⟨o, ho, hcontributed⟩ := mem_demanded_iff_exists_occurrence.mp hdemanded
  refine ⟨⟨o, ho, hcontributed⟩, mem_support.mpr (occurs_iff_exists_occurrence.mpr ⟨o, ho, ?_⟩)⟩
  exact (Occurrence.signal_eq_of_mem_contributed hcontributed).symm

/-- In `~(I0 & (~I1 ^ I2))` the second signal is written as a complement below one negation. The
exclusive or brings it into the cover in both polarities. -/
theorem toCover_literals_contributed_below_xor :
    let lit (k : Nat) (p : Polarity) : Literal := (Signal.ofIndex k).literal p
    let f : Formula := not (and (.lit (lit 0 .direct))
      (xor (.lit (lit 1 .complement)) (.lit (lit 2 .direct))))
    let cube : Cube := ⟨[lit 1 .direct, lit 2 .complement]⟩
    f.toCover.cubes = [⟨[lit 0 .complement]⟩, ⟨[lit 1 .complement, lit 2 .direct]⟩, cube] ∧
      f.occurrences = [⟨lit 0 .direct, 1, false⟩, ⟨lit 1 .complement, 1, true⟩,
        ⟨lit 2 .direct, 1, true⟩] ∧
      cube ∈ f.toCover.cubes ∧ lit 1 .direct ∈ cube.literals ∧
      (∃ o ∈ f.occurrences, lit 1 .direct ∈ o.contributed) ∧
      (lit 1 .direct).signal ∈ f.support := by
  intro lit f cube
  have hcube : cube ∈ f.toCover.cubes := by decide
  have hl : lit 1 .direct ∈ cube.literals := by decide
  exact ⟨by decide, by decide, hcube, hl, toCover_literals_contributed f hcube hl⟩

end ArrayLogic.Formula
