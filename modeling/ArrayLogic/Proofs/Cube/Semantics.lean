import ArrayLogic.Proofs.Cover.Absorption

/-! # What cubes mean

Cubes are compared and joined literal by literal. On the cubes that can be built this agrees with
what the cubes mean: a conjunction is missing only where the two cubes contradict each other, and
absorption is implication. The assignments that decide both questions are read from a cube.
-/

namespace ArrayLogic.Cube

variable {a b c : Cube}

theorem eval_of_and (h : a.and b = some c) (v : Assignment) :
    c.eval v = (a.eval v && b.eval v) := by
  rw [← any_eval_and, h, Option.any_some]

theorem Ordered.and_eq_none_iff (ha : a.Ordered) :
    a.and b = none ↔ ¬ ∃ v, a.eval v = true ∧ b.eval v = true := by
  constructor
  · intro hnone hboth
    obtain ⟨v, hav, hbv⟩ := hboth
    have hvalue := any_eval_and a b v
    rw [hnone, hav, hbv] at hvalue
    simp at hvalue
  · intro hnever
    cases hand : a.and b with
    | none => rfl
    | some c =>
        -- The union is in order, so the assignment that is read from it satisfies both cubes.
        have hvalue := eval_of_and hand (c.satisfying true)
        rw [(ha.and hand).eval_satisfying, eq_comm, Bool.and_eq_true] at hvalue
        exact absurd ⟨_, hvalue⟩ hnever

theorem Ordered.and_comm (ha : a.Ordered) (hb : b.Ordered) : a.and b = b.and a := by
  apply Option.ext
  intro c
  rw [ha.and_eq_some_iff, hb.and_eq_some_iff]
  simp only [or_comm]

/-- A cube has the literals of another exactly if it implies the other. -/
theorem Ordered.subset_iff_implies (hb : b.Ordered) :
    a.literals ⊆ b.literals ↔ ∀ v, b.eval v = true → a.eval v = true := by
  constructor
  · intro hsub v hbv
    rw [eval, List.all_eq_true] at hbv ⊢
    intro l hl
    exact hbv l (hsub hl)
  · intro himplies
    by_contra hsub
    obtain ⟨v, hbv, hav⟩ := hb.exists_eval_of_not_subset hsub
    rw [himplies v hbv] at hav
    simp at hav

/-- Two cubes have a conjunction exactly if some assignment satisfies both. It lists the literals of
both cubes in order, has the value of both under every assignment and does not depend on which cube
comes first. A cube absorbs another exactly if its literals are among those of the other, and that
is so exactly if it is true wherever the other one is. -/
theorem and_isSubsetOf_exact_of_reachable (ha : a.Reachable) (hb : b.Reachable) :
    (a.and b = none ↔ ¬ ∃ v, a.eval v = true ∧ b.eval v = true) ∧
      (∀ c, a.and b = some c → c.Reachable ∧ c.literals.Pairwise (·.code < ·.code) ∧
        (∀ l, l ∈ c.literals ↔ l ∈ a.literals ∨ l ∈ b.literals) ∧
        ∀ v, c.eval v = (a.eval v && b.eval v)) ∧
      a.and b = b.and a ∧
      (a.isSubsetOf b = true ↔ ∀ l ∈ a.literals, l ∈ b.literals) ∧
      ((∀ l ∈ a.literals, l ∈ b.literals) ↔ ∀ v, b.eval v = true → a.eval v = true) := by
  have hao := ha.ordered
  have hbo := hb.ordered
  refine ⟨hao.and_eq_none_iff, ?_, hao.and_comm hbo, hao.isSubsetOf_iff hbo,
    hbo.subset_iff_implies⟩
  intro c hand
  exact ⟨.and ha hb hand, (hao.and hand).code_lt, fun l => mem_literals_and hand, eval_of_and hand⟩

/-- The literals of two cubes interleave, and one of them is shared. The last signal contradicts its
complement, also behind other literals. -/
theorem and_isSubsetOf_exact_of_reachable_interleaved :
    let lit (k : Nat) (p : Polarity) : Literal := (Signal.ofIndex k).literal p
    let last := Nat.pow 2 63 - 1
    let a : Cube := ⟨[lit 0 .complement, lit 2 .direct, lit last .direct]⟩
    let b : Cube := ⟨[lit 1 .direct, lit 2 .direct]⟩
    let c : Cube := ⟨[lit 1 .direct, lit last .complement]⟩
    let union : Cube := ⟨[lit 0 .complement, lit 1 .direct, lit 2 .direct, lit last .direct]⟩
    a.Reachable ∧ b.Reachable ∧ c.Reachable ∧ a.and b = some union ∧ b.and a = some union ∧
      (∀ v, union.eval v = (a.eval v && b.eval v)) ∧ (∀ v, union.eval v = true → b.eval v = true) ∧
      a.and c = none ∧ ¬ ∃ v, a.eval v = true ∧ c.eval v = true := by
  intro lit last a b c union
  have hpair : Reachable ⟨[lit 2 .direct, lit last .direct]⟩ :=
    .and (.ofLiteral (lit last .direct)) (.ofLiteral (lit 2 .direct)) (by decide)
  have ha : a.Reachable := .and hpair (.ofLiteral (lit 0 .complement)) (by decide)
  have hb : b.Reachable :=
    .and (.ofLiteral (lit 2 .direct)) (.ofLiteral (lit 1 .direct)) (by decide)
  have hc : c.Reachable :=
    .and (.ofLiteral (lit last .complement)) (.ofLiteral (lit 1 .direct)) (by decide)
  have hunion : a.and b = some union := by decide
  have hnone : a.and c = none := by decide
  obtain ⟨-, hparts, hcomm, -⟩ := and_isSubsetOf_exact_of_reachable ha hb
  obtain ⟨hreachable, -, -, hvalue⟩ := hparts union hunion
  obtain ⟨-, -, -, habsorbs, himplies⟩ := and_isSubsetOf_exact_of_reachable hb hreachable
  refine ⟨ha, hb, hc, hunion, hcomm ▸ hunion, hvalue, ?_, hnone, ?_⟩
  · exact himplies.mp (habsorbs.mp (by decide))
  · exact (and_isSubsetOf_exact_of_reachable ha hc).1.mp hnone

end ArrayLogic.Cube
