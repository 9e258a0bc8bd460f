import ArrayLogic.Proofs.Cover.Absorption

/-! # Covers form a lattice

Up to the order of their cubes, covers form a bounded distributive lattice. What a cover absorbs
turns disjunction into "or" and conjunction into "and", so every law of truth values that uses only
these two holds of covers, too. Negation exchanges the two operations, and with them each law for
another one. A formula that is rewritten by the laws therefore needs the same product terms as
before, wherever in the formula the rewriting takes place.
-/

namespace ArrayLogic

/-! ## Laws -/

/-- Disjunction and conjunction with their constants. -/
structure LatticeOperations (α : Type) where
  or : α → α → α
  and : α → α → α
  zero : α
  one : α

variable {α : Type} {o : LatticeOperations α}

/-- The laws of bounded distributive lattices. -/
inductive LatticeLaw (o : LatticeOperations α) : α → α → Prop
  | or_comm (a b : α) : LatticeLaw o (o.or a b) (o.or b a)
  | and_comm (a b : α) : LatticeLaw o (o.and a b) (o.and b a)
  | or_assoc (a b c : α) : LatticeLaw o (o.or (o.or a b) c) (o.or a (o.or b c))
  | and_assoc (a b c : α) : LatticeLaw o (o.and (o.and a b) c) (o.and a (o.and b c))
  | or_self (a : α) : LatticeLaw o (o.or a a) a
  | and_self (a : α) : LatticeLaw o (o.and a a) a
  | or_and_self (a b : α) : LatticeLaw o (o.or a (o.and a b)) a
  | and_or_self (a b : α) : LatticeLaw o (o.and a (o.or a b)) a
  | or_and_distrib (a b c : α) :
      LatticeLaw o (o.or a (o.and b c)) (o.and (o.or a b) (o.or a c))
  | and_or_distrib (a b c : α) :
      LatticeLaw o (o.and a (o.or b c)) (o.or (o.and a b) (o.and a c))
  | or_zero (a : α) : LatticeLaw o (o.or a o.zero) a
  | and_one (a : α) : LatticeLaw o (o.and a o.one) a
  | or_one (a : α) : LatticeLaw o (o.or a o.one) o.one
  | and_zero (a : α) : LatticeLaw o (o.and a o.zero) o.zero

/-- A property that the operations combine like a truth value. -/
structure LatticeOperations.Valuation (o : LatticeOperations α) (p : α → Prop) : Prop where
  or : ∀ a b, p (o.or a b) ↔ p a ∨ p b
  and : ∀ a b, p (o.and a b) ↔ p a ∧ p b
  zero : ¬ p o.zero
  one : p o.one

/-- The laws hold of truth values. -/
theorem LatticeOperations.Valuation.iff_of_law {p : α → Prop} (hp : o.Valuation p) {a b : α}
    (h : LatticeLaw o a b) : p a ↔ p b := by
  cases h with
  | or_comm a b => rw [hp.or, hp.or, Or.comm]
  | and_comm a b => rw [hp.and, hp.and, And.comm]
  | or_assoc a b c => rw [hp.or, hp.or, hp.or, hp.or, or_assoc]
  | and_assoc a b c => rw [hp.and, hp.and, hp.and, hp.and, and_assoc]
  | or_self a => rw [hp.or, or_self]
  | and_self a => rw [hp.and, and_self]
  | or_and_self a b => rw [hp.or, hp.and, or_iff_left_of_imp And.left]
  | and_or_self a b => rw [hp.and, hp.or, and_iff_left_of_imp Or.inl]
  | or_and_distrib a b c => rw [hp.or, hp.and, hp.and, hp.or, hp.or, or_and_left]
  | and_or_distrib a b c => rw [hp.and, hp.or, hp.or, hp.and, hp.and, and_or_left]
  | or_zero a => rw [hp.or, or_iff_left hp.zero]
  | and_one a => rw [hp.and, and_iff_left hp.one]
  | or_one a => rw [hp.or, or_iff_right_of_imp fun _ => hp.one]
  | and_zero a => rw [hp.and, and_iff_right_of_imp fun h => absurd h hp.zero]

/-! ## Covers -/

namespace Cover

/-- The operations on the covers that can be built. -/
def operations : LatticeOperations {c : Cover // c.Reachable} where
  or a b := ⟨a.1.or b.1, .or a.2 b.2⟩
  and a b := ⟨a.1.and b.1, .and a.2 b.2⟩
  zero := ⟨.zero, .zero⟩
  one := ⟨.one, .one⟩

theorem valuation_absorbs {cube : Cube} (hcube : cube.Ordered) :
    operations.Valuation fun a => a.1.Absorbs cube :=
  ⟨fun _ _ => absorbs_or, fun _ _ => absorbs_and hcube, absorbs_zero cube, absorbs_one cube⟩

theorem perm_of_law {a b : {c : Cover // c.Reachable}} (h : LatticeLaw operations a b) :
    a.1.cubes.Perm b.1.cubes := by
  apply a.2.reduced.perm_of_absorbs b.2.reduced
  intro cube hcube
  exact (valuation_absorbs hcube).iff_of_law h

end Cover

/-! ## Formulas -/

namespace Formula

def operations : LatticeOperations Formula :=
  ⟨.or, .and, .const false, .const true⟩

/-- The formulas are equal by the laws, which may be applied anywhere in them. -/
inductive Rewrites : Formula → Formula → Prop
  | law {f g : Formula} (h : LatticeLaw operations f g) : Rewrites f g
  | refl (f : Formula) : Rewrites f f
  | symm {f g : Formula} (h : Rewrites f g) : Rewrites g f
  | trans {f g k : Formula} (hf : Rewrites f g) (hg : Rewrites g k) : Rewrites f k
  | not {f g : Formula} (h : Rewrites f g) : Rewrites f.not g.not
  | and {f f' g g' : Formula} (hf : Rewrites f f') (hg : Rewrites g g') :
      Rewrites (f.and g) (f'.and g')
  | or {f f' g g' : Formula} (hf : Rewrites f f') (hg : Rewrites g g') :
      Rewrites (f.or g) (f'.or g')
  | xor {f f' g g' : Formula} (hf : Rewrites f f') (hg : Rewrites g g') :
      Rewrites (f.xor g) (f'.xor g')

open Cover (absorbs_and absorbs_one absorbs_or absorbs_zero)

variable {cube : Cube}

theorem valuation_cover (hcube : cube.Ordered) :
    operations.Valuation fun f => (f.cover false).Absorbs cube :=
  ⟨fun _ _ => absorbs_or, fun _ _ => absorbs_and hcube, absorbs_zero cube, absorbs_one cube⟩

/-- A negated cover exchanges the operations, so what it does not absorb is a valuation. -/
theorem valuation_cover_negated (hcube : cube.Ordered) :
    operations.Valuation fun f => ¬ (f.cover true).Absorbs cube where
  or f g := by
    have hcover : ((operations.or f g).cover true).Absorbs cube ↔
        (f.cover true).Absorbs cube ∧ (g.cover true).Absorbs cube := absorbs_and hcube
    rw [hcover, not_and_or]
  and f g := by
    have hcover : ((operations.and f g).cover true).Absorbs cube ↔
        (f.cover true).Absorbs cube ∨ (g.cover true).Absorbs cube := absorbs_or
    rw [hcover, not_or]
  zero := not_not.mpr (absorbs_one cube)
  one := absorbs_zero cube

theorem Rewrites.absorbs_iff {f g : Formula} (h : Rewrites f g) (hcube : cube.Ordered)
    (negated : Bool) : (f.cover negated).Absorbs cube ↔ (g.cover negated).Absorbs cube := by
  induction h generalizing negated with
  | law h =>
      cases negated with
      | false => exact (valuation_cover hcube).iff_of_law h
      | true => exact not_iff_not.mp ((valuation_cover_negated hcube).iff_of_law h)
  | refl f => rfl
  | symm _ ih => exact (ih negated).symm
  | trans _ _ ihf ihg => exact (ihf negated).trans (ihg negated)
  | not _ ih => exact ih !negated
  | and _ _ ihf ihg =>
      cases negated with
      | false => rw [cover, cover, absorbs_and hcube, absorbs_and hcube, ihf, ihg]
      | true => rw [cover, cover, absorbs_or, absorbs_or, ihf, ihg]
  | or _ _ ihf ihg =>
      cases negated with
      | false => rw [cover, cover, absorbs_or, absorbs_or, ihf, ihg]
      | true => rw [cover, cover, absorbs_and hcube, absorbs_and hcube, ihf, ihg]
  | xor _ _ ihf ihg => simp only [cover_xor, absorbs_or, absorbs_and hcube, ihf, ihg]

theorem Rewrites.perm_terms {f g : Formula} (h : Rewrites f g) :
    f.toCover.terms.Perm g.toCover.terms := by
  have hcubes : f.toCover.cubes.Perm g.toCover.cubes := by
    apply (f.reachable_cover false).reduced.perm_of_absorbs (g.reachable_cover false).reduced
    exact fun cube hcube => h.absorbs_iff hcube false
  exact hcubes.map Cube.term

end Formula

/-- The covers that can be built form a bounded distributive lattice up to the order of their cubes,
and a formula that is rewritten by the laws needs the same product terms. -/
theorem Cover.lattice_of_reachable :
    (∀ a b : {c : Cover // c.Reachable}, LatticeLaw operations a b → a.1.cubes.Perm b.1.cubes) ∧
      ∀ f g : Formula, f.Rewrites g → f.toCover.terms.Perm g.toCover.terms :=
  ⟨fun _ _ => perm_of_law, fun _ _ => Formula.Rewrites.perm_terms⟩

/-- Distribution leaves a contradiction out on one side and absorbs products on the other. Under a
negation, rewriting exchanges two products. -/
theorem Cover.lattice_of_reachable_distribution :
    let lit (k : Nat) (p : Polarity) : Literal := (Signal.ofIndex k).literal p
    let atom (l : Literal) : {c : Cover // c.Reachable} := ⟨ofLiteral l, .ofLiteral l⟩
    let x := atom (lit 0 .direct)
    let y := atom (lit 1 .direct)
    let z := atom (lit 1 .complement)
    let a := operations.or x (operations.and y z)
    let b := operations.and (operations.or x y) (operations.or x z)
    let input (k : Nat) : Formula := .lit (lit k .direct)
    let f := ((input 2).or ((input 0).and (input 1))).not
    let g := (((input 2).or (input 1)).and ((input 2).or (input 0))).not
    let first : Term := ⟨[lit 0 .complement, lit 2 .complement]⟩
    let second : Term := ⟨[lit 1 .complement, lit 2 .complement]⟩
    LatticeLaw operations a b ∧ b.1.cubes = [⟨[lit 0 .direct]⟩] ∧ a.1.cubes.Perm b.1.cubes ∧
      f.Rewrites g ∧ f.toCover.terms = [first, second] ∧ g.toCover.terms = [second, first] ∧
      f.toCover.terms.Perm g.toCover.terms := by
  intro lit atom x y z a b input f g first second
  have hlaw : LatticeLaw operations a b := .or_and_distrib x y z
  have hrewrites : f.Rewrites g :=
    .not (.trans (.or (.refl _) (.law (.and_comm _ _))) (.law (.or_and_distrib _ _ _)))
  exact ⟨hlaw, by decide, lattice_of_reachable.1 a b hlaw, hrewrites, by decide, by decide,
    lattice_of_reachable.2 f g hrewrites⟩

end ArrayLogic
