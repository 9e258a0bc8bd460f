import Mathlib.Data.List.Forall2
import Mathlib.Data.List.Nodup

/-! # Computations that may fail

A sequence of computations succeeds if each of them does. The readers and the stages of a
compilation are such sequences, and these statements take them apart. A search fails if there is
nothing to find. A list can also be gone through together with the places of its entries.
-/

namespace ArrayLogic

variable {α β ε : Type}

/-- A result is described completely by conditions that some result meets and that no result but
this one meets. -/
theorem eq_iff_of_exists {a : α} {condition : α → Prop} (hexists : ∃ r, condition r)
    (heq : ∀ r, condition r → a = r) {r : α} : a = r ↔ condition r := by
  constructor
  · rintro rfl
    obtain ⟨r, hr⟩ := hexists
    rw [heq r hr]
    exact hr
  · exact heq r

theorem bind_eq_ok_iff {x : Except ε α} {f : α → Except ε β} {b : β} :
    x >>= f = .ok b ↔ ∃ a, x = .ok a ∧ f a = .ok b := by
  cases x with
  | error e => simp [bind, Except.bind]
  | ok a => simp [bind, Except.bind]

theorem bind_eq_error_iff {x : Except ε α} {f : α → Except ε β} {e : ε} :
    x >>= f = .error e ↔ x = .error e ∨ ∃ a, x = .ok a ∧ f a = .error e := by
  cases x with
  | error e => simp [bind, Except.bind]
  | ok a => simp [bind, Except.bind]

theorem toOption_eq_some_iff {x : Except ε α} {a : α} : x.toOption = some a ↔ x = .ok a := by
  cases x <;> simp [Except.toOption]

theorem mapError_eq_ok_iff {ε' : Type} {x : Except ε α} {f : ε → ε'} {a : α} :
    x.mapError f = .ok a ↔ x = .ok a := by
  cases x <;> simp [Except.mapError]

theorem map_eq_ok_iff {x : Except ε α} {f : α → β} {b : β} :
    x.map f = .ok b ↔ ∃ a, x = .ok a ∧ f a = b := by
  cases x <;> simp [Except.map]

theorem mapM_eq_ok_iff {f : α → Except ε β} {xs : List α} {ys : List β} :
    xs.mapM f = .ok ys ↔ List.Forall₂ (fun x y => f x = .ok y) xs ys := by
  induction xs generalizing ys with
  | nil => simp [pure, Except.pure, eq_comm]
  | cons x xs ih =>
      rw [List.mapM_cons, bind_eq_ok_iff, List.forall₂_cons_left_iff]
      constructor
      · intro hparts
        obtain ⟨y, hy, hrest⟩ := hparts
        obtain ⟨later, hlater, hys⟩ := bind_eq_ok_iff.mp hrest
        exact ⟨y, later, hy, ih.mp hlater, (Except.ok.inj hys).symm⟩
      · intro hparts
        obtain ⟨y, later, hy, hlater, rfl⟩ := hparts
        exact ⟨y, hy, bind_eq_ok_iff.mpr ⟨later, ih.mpr hlater, rfl⟩⟩

/-- Each result comes from the computation at its place. -/
theorem exists_getElem?_of_mapM {f : α → Except ε β} {xs : List α} {ys : List β}
    (h : xs.mapM f = .ok ys) {p : Nat} {y : β} (hy : ys[p]? = some y) :
    ∃ x, xs[p]? = some x ∧ f x = .ok y := by
  obtain ⟨hlength, hpairs⟩ := List.forall₂_iff_get.mp (mapM_eq_ok_iff.mp h)
  obtain ⟨hp, rfl⟩ := List.getElem?_eq_some_iff.mp hy
  have hp' : p < xs.length := hlength ▸ hp
  exact ⟨xs[p], List.getElem?_eq_getElem hp', hpairs p hp' hp⟩

theorem exists_mapM_eq_ok {f : α → Except ε β} {xs : List α} (h : ∀ x ∈ xs, ∃ y, f x = .ok y) :
    ∃ ys, xs.mapM f = .ok ys := by
  induction xs with
  | nil => exact ⟨[], rfl⟩
  | cons x xs ih =>
      obtain ⟨⟨y, hy⟩, hxs⟩ := List.forall_mem_cons.mp h
      obtain ⟨ys, hys⟩ := ih hxs
      exact ⟨y :: ys, mapM_eq_ok_iff.mpr (.cons hy (mapM_eq_ok_iff.mp hys))⟩

/-- The first computation that fails decides the error. -/
theorem mapM_eq_error {f : α → Except ε β} {front back : List α} {x : α} {e : ε}
    (hfront : ∀ y ∈ front, ∃ b, f y = .ok b) (hx : f x = .error e) :
    (front ++ x :: back).mapM f = .error e := by
  induction front with
  | nil =>
      rw [List.nil_append, List.mapM_cons, hx]
      rfl
  | cons y front ih =>
      obtain ⟨⟨b, hb⟩, hfront⟩ := List.forall_mem_cons.mp hfront
      rw [List.cons_append, List.mapM_cons, hb, ih hfront]
      rfl

/-- If a sequence of steps fails, then the steps before some one succeed, and that one fails. -/
theorem exists_of_foldlM_eq_error {f : β → α → Except ε β} {xs : List α} {b : β} {e : ε}
    (h : xs.foldlM f b = .error e) :
    ∃ front x back reached, xs = front ++ x :: back ∧ front.foldlM f b = .ok reached ∧
      f reached x = .error e := by
  induction xs generalizing b with
  | nil => simp [pure, Except.pure] at h
  | cons x xs ih =>
      rw [List.foldlM_cons] at h
      rcases bind_eq_error_iff.mp h with hx | ⟨next, hnext, hrest⟩
      · exact ⟨[], x, xs, b, rfl, rfl, hx⟩
      · obtain ⟨front, y, back, reached, rfl, hfront, hy⟩ := ih hrest
        refine ⟨x :: front, y, back, reached, rfl, ?_, hy⟩
        rw [List.foldlM_cons]
        exact bind_eq_ok_iff.mpr ⟨next, hnext, hfront⟩

theorem mapM_eq_some_map {f : α → Option β} {g : α → β} {xs : List α}
    (h : ∀ x ∈ xs, f x = some (g x)) : xs.mapM f = some (xs.map g) := by
  induction xs with
  | nil => rfl
  | cons x xs ih =>
      obtain ⟨hx, hxs⟩ := List.forall_mem_cons.mp h
      rw [List.mapM_cons, hx, ih hxs]
      rfl

theorem flatMap_zipIdx_fst (f : α → List β) (xs : List α) :
    xs.zipIdx.flatMap (fun x => f x.1) = xs.flatMap f := by
  conv => rhs; rw [← List.zipIdx_map_fst 0 xs, List.flatMap_map]

/-- What stands in a list only once is found where it stands. -/
theorem idxOf?_eq_some_iff_of_nodup [DecidableEq α] {xs : List α} (h : xs.Nodup) {x : α} {p : Nat} :
    xs.idxOf? x = some p ↔ xs[p]? = some x := by
  rw [List.idxOf?_eq_some_iff, List.getElem?_eq_some_iff]
  constructor
  · intro hparts
    obtain ⟨hp, hx, -⟩ := hparts
    exact ⟨hp, hx⟩
  · intro hparts
    obtain ⟨hp, hx⟩ := hparts
    refine ⟨hp, hx, ?_⟩
    intro q hq heq
    have hsame : q = p := h.getElem_inj_iff.mp (heq.trans hx.symm)
    exact Nat.ne_of_lt hq hsame

end ArrayLogic
