import ArrayLogic.Cover
import ArrayLogic.Proofs.Cube

/-! # Cover algebra

Disjunction and conjunction of covers both push cubes one by one. A push changes the meaning by the
pushed cube alone, introduces no other cube, and leaves no two cubes of which one absorbs the other.
The last fact isolates the constant `1`: beside the empty cube there is room for no other.
-/

namespace ArrayLogic.Cover

/-! ## Meaning -/

theorem mem_products {a b : Cover} {cube : Cube} :
    cube ∈ products a b ↔ ∃ x ∈ a.cubes, ∃ y ∈ b.cubes, x.and y = some cube := by
  simp [products]

theorem any_eval_products (a b : Cover) (v : Assignment) :
    (products a b).any (·.eval v) = (a.eval v && b.eval v) := by
  rw [Bool.eq_iff_iff, Bool.and_eq_true]
  simp only [eval, List.any_eq_true]
  constructor
  · intro hparts
    obtain ⟨cube, hcube, hv⟩ := hparts
    obtain ⟨x, hx, y, hy, hand⟩ := mem_products.mp hcube
    have hboth := Cube.any_eval_and x y v
    rw [hand, Option.any_some, hv, eq_comm, Bool.and_eq_true] at hboth
    exact ⟨⟨x, hx, hboth.1⟩, y, hy, hboth.2⟩
  · intro hparts
    obtain ⟨⟨x, hx, hvx⟩, y, hy, hvy⟩ := hparts
    have hboth := Cube.any_eval_and x y v
    rw [hvx, hvy, Bool.and_self, Option.any_eq_true] at hboth
    obtain ⟨cube, hand, hv⟩ := hboth
    exact ⟨cube, mem_products.mpr ⟨x, hx, y, hy, hand⟩, hv⟩

theorem eval_and (a b : Cover) (v : Assignment) :
    (a.and b).eval v = (a.eval v && b.eval v) := by
  rw [and, eval_foldl_push, any_eval_products]
  rfl

/-! ## Cubes of a result -/

theorem mem_push {c : Cover} {cube kept : Cube} (h : kept ∈ (c.push cube).cubes) :
    kept ∈ c.cubes ∨ kept = cube := by
  unfold push at h
  split at h
  · exact .inl h
  · rcases List.mem_append.mp h with h | h
    · exact .inl (List.mem_filter.mp h).1
    · exact .inr (List.mem_singleton.mp h)

theorem mem_foldl_push {cubes : List Cube} {c : Cover} {kept : Cube}
    (h : kept ∈ (cubes.foldl push c).cubes) : kept ∈ c.cubes ∨ kept ∈ cubes := by
  induction cubes generalizing c with
  | nil => exact .inl h
  | cons cube rest ih =>
      rcases ih h with h | h
      · rcases mem_push h with h | rfl
        · exact .inl h
        · exact .inr List.mem_cons_self
      · exact .inr (List.mem_cons_of_mem _ h)

theorem mem_or {a b : Cover} {cube : Cube} (h : cube ∈ (a.or b).cubes) :
    cube ∈ a.cubes ∨ cube ∈ b.cubes :=
  mem_foldl_push h

theorem mem_and {a b : Cover} {cube : Cube} (h : cube ∈ (a.and b).cubes) :
    ∃ x ∈ a.cubes, ∃ y ∈ b.cubes, x.and y = some cube := by
  rcases mem_foldl_push h with h | h
  · simp [zero] at h
  · exact mem_products.mp h

/-- The literal occurs in a cube of the cover. -/
def Mentions (c : Cover) (l : Literal) : Prop :=
  ∃ cube ∈ c.cubes, l ∈ cube.literals

theorem mentions_ofLiteral {k l : Literal} (h : (ofLiteral k).Mentions l) : l = k := by
  obtain ⟨cube, hcube, hl⟩ := h
  obtain rfl := List.mem_singleton.mp hcube
  exact List.mem_singleton.mp hl

theorem mentions_or {a b : Cover} {l : Literal} (h : (a.or b).Mentions l) :
    a.Mentions l ∨ b.Mentions l := by
  obtain ⟨cube, hcube, hl⟩ := h
  rcases mem_or hcube with hcube | hcube
  · exact .inl ⟨cube, hcube, hl⟩
  · exact .inr ⟨cube, hcube, hl⟩

theorem mentions_and {a b : Cover} {l : Literal} (h : (a.and b).Mentions l) :
    a.Mentions l ∨ b.Mentions l := by
  obtain ⟨cube, hcube, hl⟩ := h
  obtain ⟨x, hx, y, hy, hand⟩ := mem_and hcube
  rcases (Cube.mem_literals_and hand).mp hl with hl | hl
  · exact .inl ⟨x, hx, hl⟩
  · exact .inr ⟨y, hy, hl⟩

/-! ## Absorption -/

/-- Every cube is in order, and none absorbs another. -/
structure Reduced (c : Cover) : Prop where
  ordered : ∀ cube ∈ c.cubes, cube.Ordered
  incomparable : c.cubes.Pairwise fun a b => a.isSubsetOf b = false ∧ b.isSubsetOf a = false

namespace Reduced

theorem zero : Cover.zero.Reduced :=
  ⟨by simp [Cover.zero], .nil⟩

theorem one : Cover.one.Reduced :=
  ⟨by simp [Cover.one, Cube.ordered_empty], List.pairwise_singleton _ _⟩

theorem ofLiteral (l : Literal) : (Cover.ofLiteral l).Reduced :=
  ⟨by simp [Cover.ofLiteral, Cube.ordered_ofLiteral], List.pairwise_singleton _ _⟩

theorem push {c : Cover} (h : c.Reduced) {cube : Cube} (hcube : cube.Ordered) :
    (c.push cube).Reduced := by
  refine ⟨?_, ?_⟩
  · intro kept hkept
    rcases mem_push hkept with hkept | rfl
    · exact h.ordered kept hkept
    · exact hcube
  · unfold Cover.push
    split
    · exact h.incomparable
    next hfree =>
      refine List.pairwise_append.mpr ⟨h.incomparable.filter _, List.pairwise_singleton _ _, ?_⟩
      intro kept hkept other hother
      obtain rfl := List.mem_singleton.mp hother
      obtain ⟨hmem, hkept⟩ := List.mem_filter.mp hkept
      simp only [List.any_eq_true, not_exists, not_and, Bool.not_eq_true] at hfree
      exact ⟨hfree kept hmem, by simpa using hkept⟩

theorem foldl_push {cubes : List Cube} (hcubes : ∀ cube ∈ cubes, cube.Ordered) {c : Cover}
    (h : c.Reduced) : (cubes.foldl Cover.push c).Reduced := by
  induction cubes generalizing c with
  | nil => exact h
  | cons cube rest ih =>
      apply ih
      · exact fun x hx => hcubes x (List.mem_cons_of_mem _ hx)
      · exact h.push (hcubes cube List.mem_cons_self)

theorem or {a b : Cover} (ha : a.Reduced) (hb : b.Reduced) : (a.or b).Reduced :=
  ha.foldl_push hb.ordered

theorem and {a b : Cover} (ha : a.Reduced) : (a.and b).Reduced := by
  apply zero.foldl_push
  intro cube hcube
  obtain ⟨x, hx, y, -, hand⟩ := mem_products.mp hcube
  exact (ha.ordered x hx).and hand

/-- The empty cube absorbs every cube, so it stands alone. -/
theorem eq_one_of_empty_mem {c : Cover} (h : c.Reduced) (hempty : Cube.empty ∈ c.cubes) :
    c = .one := by
  obtain ⟨before, after, hcubes⟩ := List.append_of_mem hempty
  have hpairs := h.incomparable
  rw [hcubes, List.pairwise_append, List.pairwise_cons] at hpairs
  obtain ⟨-, ⟨hafter, -⟩, hbefore⟩ := hpairs
  have habsorbs (cube : Cube) : Cube.empty.isSubsetOf cube ≠ false := by
    simp [Cube.isSubsetOf, Cube.empty, Cube.occurIn]
  have hnone : after = [] := List.eq_nil_iff_forall_not_mem.mpr fun cube hcube =>
    habsorbs cube (hafter cube hcube).1
  have hfirst : before = [] := List.eq_nil_iff_forall_not_mem.mpr fun cube hcube =>
    habsorbs cube (hbefore cube hcube .empty List.mem_cons_self).2
  rcases c with ⟨cubes⟩
  obtain rfl : cubes = [Cube.empty] := by simpa [hnone, hfirst] using hcubes
  rfl

end Reduced

/-- The covers that the constants, the literals, conjunction and disjunction can build. -/
inductive Reachable : Cover → Prop
  | zero : Reachable .zero
  | one : Reachable .one
  | ofLiteral (l : Literal) : Reachable (.ofLiteral l)
  | and {a b : Cover} : Reachable a → Reachable b → Reachable (a.and b)
  | or {a b : Cover} : Reachable a → Reachable b → Reachable (a.or b)

theorem Reachable.reduced {c : Cover} (h : c.Reachable) : c.Reduced := by
  induction h with
  | zero => exact .zero
  | one => exact .one
  | ofLiteral l => exact .ofLiteral l
  | and _ _ iha _ => exact iha.and
  | or _ _ iha ihb => exact iha.or ihb

end ArrayLogic.Cover
