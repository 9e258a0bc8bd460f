import ArrayLogic.Proofs.Cover.Absorption

/-! # Expansion is stable

A cover can be written as a formula: the disjunction of its cubes, each the conjunction of its
literals. Expanding that formula meets the literals of a cube in order and the cubes in order, so
that no literal is moved, no cube is absorbed, and the cover comes back as it was.
-/

namespace ArrayLogic

/-- The conjunction of the literals of the cube, nested to the left. -/
def Cube.formula (c : Cube) : Formula :=
  match c.literals with
  | [] => .const true
  | l :: rest => rest.foldl (fun f k => f.and (.lit k)) (.lit l)

/-- The disjunction of the formulas of the cubes, nested to the left. -/
def Cover.formula (c : Cover) : Formula :=
  match c.cubes with
  | [] => .const false
  | cube :: rest => rest.foldl (fun f x => f.or x.formula) cube.formula

theorem Formula.toCover_lit (l : Literal) : (lit l).toCover = .ofLiteral l := by
  rw [toCover, cover, Literal.flipIf, Polarity.flipIf_false]

/-! ## Cubes -/

/-- A literal behind all others is added at the end. -/
theorem Cube.Ordered.and_ofLiteral {front : List Literal} {l : Literal}
    (h : Ordered ⟨front ++ [l]⟩) : Cube.and ⟨front⟩ (ofLiteral l) = some ⟨front ++ [l]⟩ := by
  have hfront : Ordered ⟨front⟩ := (List.pairwise_append.mp h).1
  apply hfront.and_eq_some_iff.mpr
  refine ⟨h, ?_⟩
  intro k
  exact List.mem_append

theorem Cover.and_singleton {x y union : Cube} (h : x.and y = some union) :
    and ⟨[x]⟩ ⟨[y]⟩ = ⟨[union]⟩ := by
  have hproducts : products ⟨[x]⟩ ⟨[y]⟩ = [union] := by simp [products, h]
  rw [and, hproducts]
  rfl

/-- The literals that are still to come are added to the cube one behind the other. -/
theorem Formula.toCover_foldl_and {front back : List Literal} {f : Formula}
    (hf : f.toCover = ⟨[⟨front⟩]⟩) (h : Cube.Ordered ⟨front ++ back⟩) :
    (back.foldl (fun f k => f.and (.lit k)) f).toCover = ⟨[⟨front ++ back⟩]⟩ := by
  induction back generalizing front f with
  | nil => rw [List.foldl_nil, hf, List.append_nil]
  | cons l back ih =>
      rw [List.append_cons] at h ⊢
      have hnext : Cube.Ordered ⟨front ++ [l]⟩ := (List.pairwise_append.mp h).1
      apply ih _ h
      calc (f.and (.lit l)).toCover
          = f.toCover.and (lit l).toCover := rfl
        _ = Cover.and ⟨[⟨front⟩]⟩ ⟨[.ofLiteral l]⟩ := by rw [hf, toCover_lit, Cover.ofLiteral]
        _ = ⟨[⟨front ++ [l]⟩]⟩ := Cover.and_singleton hnext.and_ofLiteral

theorem Cube.Ordered.toCover_formula {c : Cube} (h : c.Ordered) : c.formula.toCover = ⟨[c]⟩ := by
  rcases c with ⟨literals⟩
  cases literals with
  | nil => rfl
  | cons l rest => exact Formula.toCover_foldl_and (Formula.toCover_lit l) h

/-! ## Covers -/

/-- Expanding the disjunction pushes its cubes one by one. -/
theorem Formula.toCover_foldl_or {cubes : List Cube} (h : ∀ cube ∈ cubes, cube.Ordered)
    (f : Formula) :
    (cubes.foldl (fun f x => f.or x.formula) f).toCover = cubes.foldl Cover.push f.toCover := by
  induction cubes generalizing f with
  | nil => rfl
  | cons cube rest ih =>
      obtain ⟨hcube, hrest⟩ := List.forall_mem_cons.mp h
      have hpush : (f.or cube.formula).toCover = f.toCover.push cube :=
        calc (f.or cube.formula).toCover
            = f.toCover.or cube.formula.toCover := rfl
          _ = f.toCover.or ⟨[cube]⟩ := by rw [hcube.toCover_formula]
          _ = f.toCover.push cube := rfl
      rw [List.foldl_cons, List.foldl_cons, ih hrest, hpush]

namespace Cover

theorem Reduced.toCover_formula {c : Cover} (h : c.Reduced) : c.formula.toCover = c := by
  rcases c with ⟨cubes⟩
  cases cubes with
  | nil => rfl
  | cons cube rest =>
      obtain ⟨hcube, hrest⟩ := List.forall_mem_cons.mp h.ordered
      calc (formula ⟨cube :: rest⟩).toCover
          = rest.foldl Cover.push cube.formula.toCover := Formula.toCover_foldl_or hrest _
        _ = rest.foldl Cover.push ⟨[cube]⟩ := by rw [hcube.toCover_formula]
        _ = ⟨cube :: rest⟩ := h.foldl_push_cubes

/-- Every cover that can be built is the expansion of its own formula, with the same cubes in the
same order. In particular, expanding the result of an expansion changes nothing. -/
theorem toCover_formula_of_reachable :
    (∀ c : Cover, c.Reachable → c.formula.toCover = c) ∧
      ∀ f : Formula, f.toCover.formula.toCover = f.toCover :=
  ⟨fun _ h => h.reduced.toCover_formula, fun f => (f.reachable_cover false).reduced.toCover_formula⟩

/-- The cubes are neither sorted nor free of opposite literals, and each comes back where it was. -/
theorem toCover_formula_of_reachable_opposite :
    let lit (k : Nat) (p : Polarity) : Literal := (Signal.ofIndex k).literal p
    let c := (((ofLiteral (lit 2 .direct)).and (ofLiteral (lit 1 .direct))).or
      (ofLiteral (lit 0 .complement))).or (ofLiteral (lit 1 .complement))
    c.Reachable ∧ c.formula = (((Formula.lit (lit 1 .direct)).and (.lit (lit 2 .direct))).or
        (.lit (lit 0 .complement))).or (.lit (lit 1 .complement)) ∧
      c.formula.toCover = c := by
  intro lit c
  have hc : c.Reachable :=
    .or (.or (.and (.ofLiteral _) (.ofLiteral _)) (.ofLiteral _)) (.ofLiteral _)
  exact ⟨hc, by decide, toCover_formula_of_reachable.1 c hc⟩

end Cover

end ArrayLogic
