import ArrayLogic.Cover
import ArrayLogic.Formula

/-! # Expanding formulas to covers

Negations are pushed down to the literals, and products are distributed over sums on the way up. An
exclusive or needs its operands in both polarities, and then so do all formulas below it. These are
expanded in both polarities at once, so that the number of steps stays linear in the size of the
formula, while a formula without exclusive or is expanded only in the polarity that is asked for.
-/

namespace ArrayLogic

/-- The covers of a formula and of its negation. -/
structure DualCover where
  onSet : Cover
  offSet : Cover

namespace DualCover

/-- The covers of the negation and of its negation. -/
def flip (a : DualCover) : DualCover :=
  ⟨a.offSet, a.onSet⟩

def flipIf (condition : Bool) (a : DualCover) : DualCover :=
  if condition then a.flip else a

/-- The cover of the exclusive or. -/
def parity (a b : DualCover) : Cover :=
  (a.onSet.and b.offSet).or (a.offSet.and b.onSet)

end DualCover

namespace Formula

/-- The covers of the formula and of its negation. -/
def dualCover : Formula → DualCover
  | const true => ⟨.one, .zero⟩
  | const false => ⟨.zero, .one⟩
  | lit l => ⟨.ofLiteral (l.flipIf false), .ofLiteral (l.flipIf true)⟩
  | not f => f.dualCover.flip
  | and f g =>
      let a := f.dualCover
      let b := g.dualCover
      ⟨a.onSet.and b.onSet, a.offSet.or b.offSet⟩
  | or f g =>
      let a := f.dualCover
      let b := g.dualCover
      ⟨a.onSet.or b.onSet, a.offSet.and b.offSet⟩
  | xor f g =>
      let a := f.dualCover
      let b := g.dualCover
      ⟨a.parity b, a.parity b.flip⟩

/-- The cover of the formula, or of its negation. -/
def cover : Formula → (negated : Bool) → Cover
  | const value, negated => if value ^^ negated then .one else .zero
  | lit l, negated => .ofLiteral (l.flipIf negated)
  | not f, negated => f.cover !negated
  | and f g, false => (f.cover false).and (g.cover false)
  | and f g, true => (f.cover true).or (g.cover true)
  | or f g, false => (f.cover false).or (g.cover false)
  | or f g, true => (f.cover true).and (g.cover true)
  | xor f g, negated => f.dualCover.parity (g.dualCover.flipIf negated)

theorem dualCover_eq (f : Formula) : f.dualCover = ⟨f.cover false, f.cover true⟩ := by
  induction f with
  | const value => cases value <;> rfl
  | lit l => rfl
  | not f ih => rw [dualCover, ih]; rfl
  | and f g ihf ihg => rw [dualCover, ihf, ihg]; rfl
  | or f g ihf ihg => rw [dualCover, ihf, ihg]; rfl
  | xor f g ihf ihg => rfl

/-- An exclusive or holds if exactly one of its operands does. -/
theorem cover_xor (f g : Formula) (negated : Bool) :
    (xor f g).cover negated =
      ((f.cover false).and (g.cover !negated)).or ((f.cover true).and (g.cover negated)) := by
  cases negated <;> rw [cover, dualCover_eq f, dualCover_eq g] <;> rfl

/-- The cover of the formula. -/
def toCover (f : Formula) : Cover :=
  f.cover false

end Formula

end ArrayLogic
