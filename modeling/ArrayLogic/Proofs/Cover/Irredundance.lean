import ArrayLogic.Proofs.Formula.Expansion
import Mathlib.Data.List.Pairwise
import Mathlib.Data.List.Perm.Subperm
import Mathlib.Data.List.Sort

/-! # Irredundant covers

A cube whose literals are in order is satisfiable, and it implies another cube only if it has all
the literals of the other. Absorption compares sets of literals, so what it leaves apart is apart as
functions, too: no cube of a cover implies another, and the constant `1` is the only cover with an
empty cube.
-/

namespace ArrayLogic

theorem Polarity.flip_ne (p : Polarity) : p.flip ≠ p := by
  cases p <;> decide

namespace Cube

/-! ## Assignments that satisfy a cube -/

theorem Ordered.eq_of_index_eq {c : Cube} (h : c.Ordered) {k l : Literal} (hk : k ∈ c.literals)
    (hl : l ∈ c.literals) (hindex : k.index = l.index) : k = l := by
  by_contra hne
  have hdistinct : c.literals.Pairwise fun k l => k.index ≠ l.index := h.imp Nat.ne_of_lt
  have : Std.Symm fun k l : Literal => k.index ≠ l.index := ⟨fun _ _ => Ne.symm⟩
  exact hdistinct.forall hk hl hne hindex

theorem Ordered.flip_not_mem {c : Cube} (h : c.Ordered) {l : Literal} (hl : l ∈ c.literals) :
    l.flip ∉ c.literals := by
  intro hflip
  have hsame := h.eq_of_index_eq hflip hl rfl
  exact l.polarity.flip_ne (congrArg Literal.polarity hsame)

/-- The literals of the cube hold, and every signal that is not in the cube has the same value. -/
def satisfying (c : Cube) (other : Bool) : Assignment := fun s =>
  c.literals.contains (s.literal .direct) ||
    (other && !c.literals.contains (s.literal .complement))

theorem Ordered.eval_satisfying {c : Cube} (h : c.Ordered) (other : Bool) :
    c.eval (c.satisfying other) = true := by
  rw [eval, List.all_eq_true]
  intro l hl
  have hflip := h.flip_not_mem hl
  rcases l with ⟨s, polarity⟩
  cases polarity with
  | direct =>
      have hdirect : s.literal .direct ∈ c.literals := hl
      simp [Literal.eval, Polarity.apply, Polarity.isComplement, satisfying, hdirect]
  | complement =>
      have hcomplement : s.literal .complement ∈ c.literals := hl
      have hdirect : s.literal .direct ∉ c.literals := hflip
      simp [Literal.eval, Polarity.apply, Polarity.isComplement, satisfying, hdirect, hcomplement]

/-- A literal that is not in the cube can be made false beside it. -/
theorem eval_satisfying_of_not_mem {c : Cube} {l : Literal} (h : l ∉ c.literals) :
    l.eval (c.satisfying l.isComplement) = false := by
  rcases l with ⟨s, polarity⟩
  cases polarity with
  | direct =>
      have hdirect : s.literal .direct ∉ c.literals := h
      simp [Literal.eval, Literal.isComplement, Polarity.apply, Polarity.isComplement, satisfying,
        hdirect]
  | complement =>
      have hcomplement : s.literal .complement ∉ c.literals := h
      simp [Literal.eval, Literal.isComplement, Polarity.apply, Polarity.isComplement, satisfying,
        hcomplement]

/-! ## Implication -/

/-- Between cubes in order, absorption compares the sets of literals. -/
theorem Ordered.isSubsetOf_iff {a b : Cube} (ha : a.Ordered) (hb : b.Ordered) :
    a.isSubsetOf b = true ↔ a.literals ⊆ b.literals := by
  constructor
  · intro h
    exact (sublist_of_occurIn h).subset
  · intro h
    -- The pass finds sublists; in order, a subset is one.
    have hnodup : a.literals.Nodup := ha.imp fun hlt heq => Nat.ne_of_lt hlt (congrArg _ heq)
    have : Std.Antisymm fun k l : Literal => k.code < l.code :=
      ⟨fun _ _ hkl hlk => absurd hlk (Nat.lt_asymm hkl)⟩
    have hsub := List.sublist_of_subperm_of_pairwise (List.subperm_of_subset hnodup h)
      ha.code_lt hb.code_lt
    exact occurIn_of_sublist hb.code_lt hsub

/-- Cubes in order with the same literals are the same. -/
theorem Ordered.eq_of_subset {a b : Cube} (ha : a.Ordered) (hb : b.Ordered)
    (hab : a.literals ⊆ b.literals) (hba : b.literals ⊆ a.literals) : a = b := by
  have hsub := sublist_of_occurIn ((ha.isSubsetOf_iff hb).mpr hab)
  have hsub' := sublist_of_occurIn ((hb.isSubsetOf_iff ha).mpr hba)
  rcases a with ⟨literals⟩
  exact congrArg mk (hsub.antisymm hsub')

/-- Where a cube lacks a literal of another, it does not imply the other. -/
theorem Ordered.exists_eval_of_not_subset {a b : Cube} (ha : a.Ordered)
    (h : ¬ b.literals ⊆ a.literals) : ∃ v, a.eval v = true ∧ b.eval v = false := by
  simp only [List.subset_def, not_forall, exists_prop] at h
  obtain ⟨l, hl, hmissing⟩ := h
  -- The signals that `a` does not mention take the value that makes the missing literal false.
  refine ⟨a.satisfying l.isComplement, ha.eval_satisfying _, ?_⟩
  rw [eval, List.all_eq_false]
  exact ⟨l, hl, by simp [eval_satisfying_of_not_mem hmissing]⟩

theorem isEmpty_iff {c : Cube} : c.isEmpty = true ↔ c = .empty := by
  rcases c with ⟨literals⟩
  simp [isEmpty, empty]

end Cube

namespace Cover

/-- Every cube lists compatible literals in order, and the cubes at any two places are independent.
The empty cube has no other beside it. -/
structure Irredundant (c : Cover) : Prop where
  code_lt : ∀ cube ∈ c.cubes, cube.literals.Pairwise (·.code < ·.code)
  flip_not_mem : ∀ cube ∈ c.cubes, ∀ l ∈ cube.literals, l.flip ∉ cube.literals
  satisfiable : ∀ cube ∈ c.cubes, ∃ v, cube.eval v = true
  not_subset : ∀ (i j : Nat) (a b : Cube), c.cubes[i]? = some a → c.cubes[j]? = some b → i ≠ j →
    ¬ a.literals ⊆ b.literals
  not_implied : ∀ (i j : Nat) (a b : Cube), c.cubes[i]? = some a → c.cubes[j]? = some b → i ≠ j →
    ∃ v, a.eval v = true ∧ b.eval v = false
  nodup : c.cubes.Nodup
  empty_alone : Cube.empty ∈ c.cubes → c.cubes = [.empty]
  isOne_iff : c.isOne = true ↔ ∃ cube ∈ c.cubes, cube.isEmpty = true

namespace Reduced

variable {c : Cover}

theorem not_subset (h : c.Reduced) {i j : Nat} {a b : Cube} (ha : c.cubes[i]? = some a)
    (hb : c.cubes[j]? = some b) (hij : i ≠ j) : ¬ a.literals ⊆ b.literals := by
  have hpairs := List.pairwise_iff_getElem.mp h.incomparable
  obtain ⟨hi, rfl⟩ := List.getElem?_eq_some_iff.mp ha
  obtain ⟨hj, rfl⟩ := List.getElem?_eq_some_iff.mp hb
  have hordered := h.ordered _ (List.getElem_mem hi)
  have hordered' := h.ordered _ (List.getElem_mem hj)
  rw [← hordered.isSubsetOf_iff hordered', Bool.not_eq_true]
  rcases Nat.lt_or_gt_of_ne hij with hlt | hgt
  · exact (hpairs i j hi hj hlt).1
  · exact (hpairs j i hj hi hgt).2

theorem isOne_iff (h : c.Reduced) :
    c.isOne = true ↔ ∃ cube ∈ c.cubes, cube.isEmpty = true := by
  constructor
  · intro hone
    unfold isOne at hone
    split at hone
    next cube hcubes => exact ⟨cube, by simp [hcubes], hone⟩
    next => simp at hone
  · rintro ⟨cube, hcube, hempty⟩
    obtain rfl := Cube.isEmpty_iff.mp hempty
    rw [h.eq_one_of_empty_mem hcube]
    rfl

theorem irredundant (h : c.Reduced) : c.Irredundant where
  code_lt cube hcube := (h.ordered cube hcube).code_lt
  flip_not_mem cube hcube _ hl := (h.ordered cube hcube).flip_not_mem hl
  satisfiable cube hcube := ⟨_, (h.ordered cube hcube).eval_satisfying true⟩
  not_subset _ _ _ _ ha hb hij := h.not_subset ha hb hij
  not_implied i j a b ha hb hij := by
    have hordered := h.ordered a (List.mem_of_getElem? ha)
    exact hordered.exists_eval_of_not_subset (h.not_subset hb ha (Ne.symm hij))
  nodup := by
    refine h.incomparable.imp ?_
    rintro a _ ⟨hsub, -⟩ rfl
    simp at hsub
  empty_alone hempty := congrArg cubes (h.eq_one_of_empty_mem hempty)
  isOne_iff := h.isOne_iff

end Reduced

/-- Every cover that can be built is irredundant, and so is the expansion of every formula. -/
theorem irredundant_of_reachable :
    (∀ c : Cover, c.Reachable → c.Irredundant) ∧ ∀ f : Formula, f.toCover.Irredundant :=
  ⟨fun _ h => h.reduced.irredundant, fun f => (f.reachable_cover false).reduced.irredundant⟩

/-- The single literals absorb a product that was there before them. -/
theorem irredundant_of_reachable_absorbed :
    let first : Literal := ⟨⟨0, by decide⟩, .direct⟩
    let last : Literal := ⟨⟨Nat.pow 2 63 - 1, by decide⟩, .complement⟩
    let c := ((ofLiteral last).and (ofLiteral first)).or ((ofLiteral last).or (ofLiteral first))
    c.Reachable ∧ c.cubes = [⟨[last]⟩, ⟨[first]⟩] ∧ c.Irredundant := by
  intro first last c
  have hreachable : c.Reachable :=
    .or (.and (.ofLiteral _) (.ofLiteral _)) (.or (.ofLiteral _) (.ofLiteral _))
  exact ⟨hreachable, by decide, irredundant_of_reachable.1 c hreachable⟩

end Cover

end ArrayLogic
