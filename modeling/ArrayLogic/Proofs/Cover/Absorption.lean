import ArrayLogic.Proofs.Cover.Irredundance
import Mathlib.Data.List.Induction

/-! # Absorption

A cover absorbs a cube if one of its cubes has no other literals. Pushing a cube adds what this cube
absorbs and takes nothing away, whatever is dropped on the way. A reduced cover consists of the
smallest cubes that it absorbs. Pushing cubes one by one therefore keeps exactly those that have no
proper part among all of them, and a cube keeps the place where it was pushed first.
-/

namespace ArrayLogic

namespace Cube

/-! ## Unions -/

theorem exists_of_insert?_eq_none {l : Literal} {literals : List Literal}
    (h : insert? l literals = none) : ∃ k ∈ literals, l ≠ k ∧ l.signal = k.signal := by
  induction literals with
  | nil => simp [insert?] at h
  | cons k rest ih =>
      rw [insert?] at h
      split at h
      · simp at h
      next hne =>
        split at h
        next hsignal => exact ⟨k, List.mem_cons_self, hne, hsignal⟩
        next =>
          split at h
          · simp at h
          · obtain ⟨j, hj, hcomplement⟩ := ih (Option.map_eq_none_iff.mp h)
            exact ⟨j, List.mem_cons_of_mem k hj, hcomplement⟩

/-- Literals of one ordered cube can be added to each other. -/
theorem Ordered.exists_foldlM {c : Cube} (hc : c.Ordered) {literals added : List Literal}
    (hliterals : literals ⊆ c.literals) (hadded : added ⊆ c.literals) :
    ∃ result, added.foldlM (fun literals l => insert? l literals) literals = some result := by
  induction added generalizing literals with
  | nil => exact ⟨literals, rfl⟩
  | cons l rest ih =>
      obtain ⟨hl, hrest⟩ := List.cons_subset.mp hadded
      rw [List.foldlM_cons]
      cases hinsert : insert? l literals with
      | none =>
          -- The complement would be a literal of the ordered cube, too.
          obtain ⟨k, hk, hne, hsignal⟩ := exists_of_insert?_eq_none hinsert
          exact absurd (hc.eq_of_index_eq hl (hliterals hk) (congrArg Signal.index hsignal)) hne
      | some next =>
          apply ih _ hrest
          intro k hk
          rcases (mem_of_insert? hinsert).mp hk with rfl | hk
          · exact hl
          · exact hliterals hk

theorem Ordered.exists_and {a b c : Cube} (hc : c.Ordered) (ha : a.literals ⊆ c.literals)
    (hb : b.literals ⊆ c.literals) : ∃ union, a.and b = some union := by
  obtain ⟨literals, hliterals⟩ := hc.exists_foldlM ha hb
  exact ⟨⟨literals⟩, and_eq_some_iff.mpr hliterals⟩

/-- The conjunction is the union of the literals, if a cube can hold them all. -/
theorem Ordered.and_eq_some_iff {a b c : Cube} (ha : a.Ordered) : a.and b = some c ↔
    c.Ordered ∧ ∀ l, l ∈ c.literals ↔ l ∈ a.literals ∨ l ∈ b.literals := by
  constructor
  · intro h
    exact ⟨ha.and h, fun l => mem_literals_and h⟩
  · rintro ⟨hc, hunion⟩
    obtain ⟨union, h⟩ := hc.exists_and (fun l hl => (hunion l).mpr (.inl hl))
      (fun l hl => (hunion l).mpr (.inr hl))
    have hsame : ∀ l, l ∈ union.literals ↔ l ∈ c.literals := by
      intro l
      rw [mem_literals_and h, hunion]
    rw [h, (ha.and h).eq_of_subset hc (fun l => (hsame l).mp) (fun l => (hsame l).mpr)]

/-! ## Proper parts -/

/-- Whether the literals of a cube are some, but not all, of those of another. -/
def isProperPartOf (a b : Cube) : Bool :=
  a.literals.all b.literals.contains && !b.literals.all a.literals.contains

theorem isProperPartOf_iff {a b : Cube} : a.isProperPartOf b = true ↔
    a.literals ⊆ b.literals ∧ ¬ b.literals ⊆ a.literals := by
  simp [isProperPartOf, List.subset_def]

end Cube

namespace Cover

/-! ## Cubes that a cover absorbs -/

/-- Some cube of the cover has no literals but those of the given one. -/
def Absorbs (c : Cover) (cube : Cube) : Prop :=
  ∃ kept ∈ c.cubes, kept.literals ⊆ cube.literals

theorem absorbs_zero (cube : Cube) : ¬ zero.Absorbs cube := by
  simp [Absorbs, zero]

theorem absorbs_one (cube : Cube) : one.Absorbs cube := by
  simp [Absorbs, one, Cube.empty]

/-- What is dropped in a push is absorbed by what stays. -/
theorem absorbs_push {c : Cover} {pushed cube : Cube} :
    (c.push pushed).Absorbs cube ↔ c.Absorbs cube ∨ pushed.literals ⊆ cube.literals := by
  unfold push
  split
  next habsorbed =>
    obtain ⟨kept, hkept, hsub⟩ := List.any_eq_true.mp habsorbed
    refine ⟨.inl, fun h => h.elim id ?_⟩
    intro hcube
    exact ⟨kept, hkept, List.Subset.trans (Cube.sublist_of_occurIn hsub).subset hcube⟩
  next =>
    constructor
    · rintro ⟨kept, hkept, hcube⟩
      rcases List.mem_append.mp hkept with hkept | hkept
      · exact .inl ⟨kept, (List.mem_filter.mp hkept).1, hcube⟩
      · obtain rfl := List.mem_singleton.mp hkept
        exact .inr hcube
    · have hpushed : pushed ∈ c.cubes.filter (fun kept => !pushed.isSubsetOf kept) ++ [pushed] := by
        simp
      rintro (⟨kept, hkept, hcube⟩ | hcube)
      · by_cases hsub : pushed.isSubsetOf kept = true
        · exact ⟨pushed, hpushed, List.Subset.trans (Cube.sublist_of_occurIn hsub).subset hcube⟩
        · exact ⟨kept, by simp [hkept, hsub], hcube⟩
      · exact ⟨pushed, hpushed, hcube⟩

theorem absorbs_foldl_push {cubes : List Cube} {c : Cover} {cube : Cube} :
    (cubes.foldl push c).Absorbs cube ↔
      c.Absorbs cube ∨ ∃ pushed ∈ cubes, pushed.literals ⊆ cube.literals := by
  induction cubes generalizing c with
  | nil => simp
  | cons pushed rest ih =>
      rw [List.foldl_cons, ih, absorbs_push, List.exists_mem_cons_iff, or_assoc]

theorem absorbs_or {a b : Cover} {cube : Cube} :
    (a.or b).Absorbs cube ↔ a.Absorbs cube ∨ b.Absorbs cube :=
  absorbs_foldl_push

/-- A conjunction absorbs what both covers absorb. Two cubes with an ordered cube above them have a
union, so none that is needed has been dropped as a contradiction. -/
theorem absorbs_and {a b : Cover} {cube : Cube} (hcube : cube.Ordered) :
    (a.and b).Absorbs cube ↔ a.Absorbs cube ∧ b.Absorbs cube := by
  rw [and, absorbs_foldl_push, or_iff_right (absorbs_zero cube)]
  constructor
  · rintro ⟨union, hunion, hsub⟩
    obtain ⟨x, hx, y, hy, hand⟩ := mem_products.mp hunion
    have hmem := fun l => Cube.mem_literals_and hand (l := l)
    exact ⟨⟨x, hx, fun l hl => hsub ((hmem l).mpr (.inl hl))⟩,
      ⟨y, hy, fun l hl => hsub ((hmem l).mpr (.inr hl))⟩⟩
  · rintro ⟨⟨x, hx, hxsub⟩, ⟨y, hy, hysub⟩⟩
    obtain ⟨union, hand⟩ := hcube.exists_and hxsub hysub
    refine ⟨union, mem_products.mpr ⟨x, hx, y, hy, hand⟩, ?_⟩
    intro l hl
    exact ((Cube.mem_literals_and hand).mp hl).elim (@hxsub l) (@hysub l)

/-! ## Smallest cubes -/

namespace Reduced

variable {a b c : Cover}

theorem eq_of_subset (h : c.Reduced) {x y : Cube} (hx : x ∈ c.cubes) (hy : y ∈ c.cubes)
    (hsub : x.literals ⊆ y.literals) : x = y := by
  obtain ⟨i, hi⟩ := List.mem_iff_getElem?.mp hx
  obtain ⟨j, hj⟩ := List.mem_iff_getElem?.mp hy
  by_cases hij : i = j
  · subst hij
    exact Option.some.inj (hi.symm.trans hj)
  · exact absurd hsub (h.not_subset hi hj hij)

/-- The cubes are the smallest ones that the cover absorbs. -/
theorem mem_cubes_iff (h : c.Reduced) {cube : Cube} : cube ∈ c.cubes ↔
    cube.Ordered ∧ c.Absorbs cube ∧ ∀ other : Cube, other.Ordered → c.Absorbs other →
      other.literals ⊆ cube.literals → other = cube := by
  constructor
  · intro hmem
    have hcube := h.ordered cube hmem
    refine ⟨hcube, ⟨cube, hmem, List.Subset.refl _⟩, ?_⟩
    rintro other hother ⟨kept, hkept, hsub⟩ hpart
    obtain rfl := h.eq_of_subset hkept hmem (List.Subset.trans hsub hpart)
    exact hother.eq_of_subset hcube hpart hsub
  · rintro ⟨-, ⟨kept, hkept, hsub⟩, hsmallest⟩
    have hself : c.Absorbs kept := ⟨kept, hkept, List.Subset.refl _⟩
    rw [← hsmallest kept (h.ordered kept hkept) hself hsub]
    exact hkept

/-- Covers that absorb the same cubes consist of the same cubes. -/
theorem perm_of_absorbs (ha : a.Reduced) (hb : b.Reduced)
    (h : ∀ cube : Cube, cube.Ordered → (a.Absorbs cube ↔ b.Absorbs cube)) :
    a.cubes.Perm b.cubes := by
  apply (List.perm_ext_iff_of_nodup ha.irredundant.nodup hb.irredundant.nodup).mpr
  intro cube
  rw [ha.mem_cubes_iff, hb.mem_cubes_iff]
  apply and_congr_right
  intro hcube
  rw [h cube hcube]
  apply and_congr_right
  intro _
  apply forall₂_congr
  intro other hother
  rw [h other hother]

end Reduced

/-! ## Batches -/

/-- The cubes that have no proper part among the others, each once, in the order of their first
occurrence. -/
def minimal (cubes : List Cube) : List Cube :=
  cubes.eraseDups.filter fun cube => !cubes.any (·.isProperPartOf cube)

theorem mem_minimal {cubes : List Cube} {cube : Cube} : cube ∈ minimal cubes ↔
    cube ∈ cubes ∧ ∀ other ∈ cubes, other.isProperPartOf cube = false := by
  simp [minimal]

/-- One more cube takes away those of which it is a proper part, and joins them if it is new and no
other is a proper part of it. -/
theorem minimal_concat (cubes : List Cube) (cube : Cube) : minimal (cubes ++ [cube]) =
    (minimal cubes).filter (fun kept => !cube.isProperPartOf kept) ++
      if cubes.contains cube || cubes.any (·.isProperPartOf cube) then [] else [cube] := by
  have hself : cube.isProperPartOf cube = false := by simp [Cube.isProperPartOf]
  have hany (x : Cube) : (cubes ++ [cube]).any (·.isProperPartOf x) =
      (cubes.any (·.isProperPartOf x) || cube.isProperPartOf x) := by
    rw [List.any_append, List.any_cons, List.any_nil, Bool.or_false]
  have hfirst : (cubes ++ [cube]).eraseDups =
      cubes.eraseDups ++ if cubes.contains cube then [] else [cube] := by
    rw [List.eraseDups_append]
    by_cases hmem : cube ∈ cubes
    · simp [hmem, List.removeAll]
    · simp [hmem, List.removeAll, List.eraseDups_cons]
  simp only [minimal, hfirst, hany, List.filter_append, List.filter_filter, Bool.not_or]
  congr 1
  · simp only [Bool.and_comm]
  · cases cubes.contains cube with
    | true => rfl
    | false => cases hpart : cubes.any (·.isProperPartOf cube) <;> simp [hpart, hself]

section

variable {cubes : List Cube} {cube : Cube} (hcubes : ∀ c ∈ cubes, c.Ordered) (hcube : cube.Ordered)

include hcubes hcube

theorem contains_or_any_isProperPartOf :
    (cubes.contains cube || cubes.any (·.isProperPartOf cube)) = true ↔
      ∃ other ∈ cubes, other.literals ⊆ cube.literals := by
  rw [Bool.or_eq_true, List.contains_iff_mem, List.any_eq_true]
  constructor
  · rintro (hmem | ⟨other, hother, hpart⟩)
    · exact ⟨cube, hmem, List.Subset.refl _⟩
    · exact ⟨other, hother, (Cube.isProperPartOf_iff.mp hpart).1⟩
  · rintro ⟨other, hother, hsub⟩
    by_cases hback : cube.literals ⊆ other.literals
    · rw [hcube.eq_of_subset (hcubes other hother) hback hsub]
      exact .inl hother
    · exact .inr ⟨other, hother, Cube.isProperPartOf_iff.mpr ⟨hsub, hback⟩⟩

theorem minimal_concat_of_absorbed (h : ∃ other ∈ cubes, other.literals ⊆ cube.literals) :
    minimal (cubes ++ [cube]) = minimal cubes := by
  rw [minimal_concat, if_pos ((contains_or_any_isProperPartOf hcubes hcube).mpr h), List.append_nil]
  apply List.filter_eq_self.mpr
  intro kept hkept
  rw [Bool.not_eq_true', Bool.eq_false_iff]
  intro hpart
  -- What the new cube is a proper part of has the absorbing one as a proper part, too.
  obtain ⟨other, hother, hsub⟩ := h
  obtain ⟨hcubesub, hback⟩ := Cube.isProperPartOf_iff.mp hpart
  have hproper : other.isProperPartOf kept = true :=
    Cube.isProperPartOf_iff.mpr ⟨List.Subset.trans hsub hcubesub,
      fun hkeptsub => hback (List.Subset.trans hkeptsub hsub)⟩
  simp [(mem_minimal.mp hkept).2 other hother] at hproper

theorem minimal_concat_of_not_absorbed (h : ¬ ∃ other ∈ cubes, other.literals ⊆ cube.literals) :
    minimal (cubes ++ [cube]) =
      (minimal cubes).filter (fun kept => !cube.isSubsetOf kept) ++ [cube] := by
  rw [minimal_concat, if_neg ((contains_or_any_isProperPartOf hcubes hcube).not.mpr h)]
  congr 1
  apply List.filter_congr
  intro kept hkept
  have hmem := (mem_minimal.mp hkept).1
  -- No cube is part of the new one, so this is a proper part of each that contains it.
  have hback : ¬ kept.literals ⊆ cube.literals := fun hsub => h ⟨kept, hmem, hsub⟩
  rw [Bool.not_inj_iff, Bool.eq_iff_iff, Cube.isProperPartOf_iff, and_iff_left hback,
    hcube.isSubsetOf_iff (hcubes kept hmem)]

/-- A push onto the smallest cubes of a batch gives the smallest cubes of the larger batch. -/
theorem push_minimal (habsorbs : Absorbs ⟨minimal cubes⟩ cube ↔
      ∃ other ∈ cubes, other.literals ⊆ cube.literals) :
    push ⟨minimal cubes⟩ cube = ⟨minimal (cubes ++ [cube])⟩ := by
  have hany : (minimal cubes).any (·.isSubsetOf cube) = true ↔ Absorbs ⟨minimal cubes⟩ cube := by
    rw [List.any_eq_true]
    apply exists_congr
    intro kept
    apply and_congr_right
    intro hkept
    exact (hcubes kept (mem_minimal.mp hkept).1).isSubsetOf_iff hcube
  unfold push
  split
  next habsorbed =>
    rw [minimal_concat_of_absorbed hcubes hcube (habsorbs.mp (hany.mp habsorbed))]
  next hfree =>
    rw [minimal_concat_of_not_absorbed hcubes hcube (habsorbs.not.mp (hany.not.mp hfree))]

end

/-- Pushing cubes one by one keeps the ones that are smallest among all of them. -/
theorem foldl_push_zero {cubes : List Cube} (h : ∀ cube ∈ cubes, cube.Ordered) :
    cubes.foldl push zero = ⟨minimal cubes⟩ := by
  induction cubes using List.reverseRecOn with
  | nil => rfl
  | append_singleton cubes cube ih =>
      obtain ⟨hcubes, hcube⟩ := List.forall_mem_append.mp h
      have hminimal := ih hcubes
      have habsorbs : Absorbs ⟨minimal cubes⟩ cube ↔
          ∃ other ∈ cubes, other.literals ⊆ cube.literals := by
        rw [← hminimal, absorbs_foldl_push, or_iff_right (absorbs_zero cube)]
      rw [List.foldl_append, hminimal]
      exact push_minimal hcubes (hcube cube List.mem_cons_self) habsorbs

/-- Cubes of which none absorbs another are pushed one behind the other. -/
theorem foldl_push_of_incomparable {front back : List Cube} (h : (front ++ back).Pairwise
      fun a b => a.isSubsetOf b = false ∧ b.isSubsetOf a = false) :
    back.foldl push ⟨front⟩ = ⟨front ++ back⟩ := by
  induction back generalizing front with
  | nil => rw [List.foldl_nil, List.append_nil]
  | cons cube back ih =>
      have hapart : ∀ kept ∈ front, kept.isSubsetOf cube = false ∧ cube.isSubsetOf kept = false :=
        fun kept hkept => (List.pairwise_append.mp h).2.2 kept hkept cube List.mem_cons_self
      have hpush : push ⟨front⟩ cube = ⟨front ++ [cube]⟩ := by
        have hfree : ¬ front.any (·.isSubsetOf cube) = true := by
          simpa using fun kept hkept => (hapart kept hkept).1
        rw [push, if_neg hfree, List.filter_eq_self.mpr]
        simpa using fun kept hkept => (hapart kept hkept).2
      rw [List.append_cons] at h ⊢
      rw [List.foldl_cons, hpush]
      exact ih h

theorem Reduced.foldl_push_cubes {c : Cover} (h : c.Reduced) : c.cubes.foldl Cover.push .zero = c :=
  @foldl_push_of_incomparable [] c.cubes h.incomparable

theorem Reduced.cubes_or {a b : Cover} (ha : a.Reduced) (hb : b.Reduced) :
    (a.or b).cubes = minimal (a.cubes ++ b.cubes) := by
  have hordered := List.forall_mem_append.mpr ⟨ha.ordered, hb.ordered⟩
  calc (a.or b).cubes
      = (b.cubes.foldl Cover.push (a.cubes.foldl Cover.push .zero)).cubes := by
        rw [ha.foldl_push_cubes, Cover.or]
    _ = ((a.cubes ++ b.cubes).foldl Cover.push .zero).cubes := by rw [List.foldl_append]
    _ = minimal (a.cubes ++ b.cubes) := by rw [foldl_push_zero hordered]

theorem Reduced.cubes_and {a : Cover} (ha : a.Reduced) (b : Cover) :
    (a.and b).cubes = minimal (products a b) := by
  rw [Cover.and, foldl_push_zero]
  intro cube hcube
  obtain ⟨x, hx, y, -, hand⟩ := mem_products.mp hcube
  exact (ha.ordered x hx).and hand

/-- The disjunction of two covers consists of the cubes of both that have no proper part among them,
and the conjunction of such cubes among the unions of a cube of one with a cube of the other. Each
stands once, where it occurs first. A union is left out only if no cube can hold its literals. -/
theorem cubes_eq_minimal_of_reachable {a b : Cover} (ha : a.Reachable) (hb : b.Reachable) :
    (a.or b).cubes = minimal (a.cubes ++ b.cubes) ∧
      (a.and b).cubes = minimal (a.cubes.flatMap fun x => b.cubes.filterMap x.and) ∧
      ∀ x ∈ a.cubes, ∀ y ∈ b.cubes, ∀ union, x.and y = some union ↔
        union.Ordered ∧ ∀ l, l ∈ union.literals ↔ l ∈ x.literals ∨ l ∈ y.literals :=
  ⟨ha.reduced.cubes_or hb.reduced, ha.reduced.cubes_and b,
    fun x hx _ _ _ => (ha.reduced.ordered x hx).and_eq_some_iff⟩

/-- A literal takes the product away that was there before it, and a repeated literal stays where it
was. In the conjunction a contradiction is left out. -/
theorem cubes_eq_minimal_of_reachable_absorbed :
    let lit (k : Nat) (p : Polarity) : Literal := (Signal.ofIndex k).literal p
    let a := ((ofLiteral (lit 1 .direct)).and (ofLiteral (lit 0 .direct))).or
      (ofLiteral (lit 2 .direct))
    let b := ((ofLiteral (lit 0 .direct)).or (ofLiteral (lit 2 .direct))).or
      (ofLiteral (lit 1 .complement))
    a.Reachable ∧ b.Reachable ∧
      (a.or b).cubes = [⟨[lit 2 .direct]⟩, ⟨[lit 0 .direct]⟩, ⟨[lit 1 .complement]⟩] ∧
      (a.and b).cubes = [⟨[lit 0 .direct, lit 1 .direct]⟩, ⟨[lit 2 .direct]⟩] := by
  intro lit a b
  have ha : a.Reachable := .or (.and (.ofLiteral _) (.ofLiteral _)) (.ofLiteral _)
  have hb : b.Reachable := .or (.or (.ofLiteral _) (.ofLiteral _)) (.ofLiteral _)
  obtain ⟨hor, hand, -⟩ := cubes_eq_minimal_of_reachable ha hb
  rw [hor, hand]
  exact ⟨ha, hb, by decide, by decide⟩

end Cover

end ArrayLogic
