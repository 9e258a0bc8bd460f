import ArrayLogic.Term

/-! # Cubes

A cube is a satisfiable conjunction of literals: its literals are in strictly increasing order of
their codes and no signal occurs in both polarities. Cubes are built from the empty one by
conjunction, which fails when it would become contradictory.
-/

namespace ArrayLogic

/-- A conjunction of literals in code order. -/
structure Cube where
  literals : List Literal
deriving DecidableEq, Repr

namespace Cube

/-- The cube without literals, which is always true. -/
def empty : Cube :=
  ⟨[]⟩

def ofLiteral (l : Literal) : Cube :=
  ⟨[l]⟩

def isEmpty (c : Cube) : Bool :=
  c.literals.isEmpty

/-- Adds a literal to literals in code order. There is no result if the complement is present: its
code differs by one, so it is met before any larger code. -/
def insert? (l : Literal) : List Literal → Option (List Literal)
  | [] => some [l]
  | k :: rest =>
      if l = k then some (k :: rest)
      else if l.signal = k.signal then none
      else if l.code < k.code then some (l :: k :: rest)
      else (insert? l rest).map (k :: ·)

/-- The conjunction of two cubes, if it is satisfiable. -/
def and (a b : Cube) : Option Cube :=
  (b.literals.foldlM (fun literals l => insert? l literals) a.literals).map (⟨·⟩)

/-- Whether every literal of the first list occurs in the second. Both are in code order, so one
pass decides it, and a literal is missing as soon as a larger code is met. -/
def occurIn : List Literal → List Literal → Bool
  | [], _ => true
  | _ :: _, [] => false
  | k :: ks, l :: ls =>
      if k.code = l.code then occurIn ks ls
      else if k.code < l.code then false
      else occurIn (k :: ks) ls

theorem sublist_of_occurIn {ks ls : List Literal} (h : occurIn ks ls = true) :
    ks.Sublist ls := by
  induction ls generalizing ks with
  | nil =>
    cases ks with
    | nil => exact .slnil
    | cons k ks => simp [occurIn] at h
  | cons l ls ih =>
    cases ks with
    | nil => exact List.nil_sublist _
    | cons k ks =>
      rw [occurIn] at h
      split at h
      next hcode =>
        rw [Literal.code_injective hcode]
        exact (ih h).cons_cons l
      next =>
        split at h
        · simp at h
        · exact (ih h).cons l

/-- In code order the pass finds every sublist. -/
theorem occurIn_of_sublist {ks ls : List Literal} (hls : ls.Pairwise (·.code < ·.code))
    (h : ks.Sublist ls) : occurIn ks ls = true := by
  induction h with
  | slnil => rfl
  | @cons ks ls l hsub ih =>
    obtain ⟨hl, hls⟩ := List.pairwise_cons.mp hls
    cases ks with
    | nil => rfl
    | cons k ks =>
      have hlt : l.code < k.code := hl k (hsub.subset List.mem_cons_self)
      rw [occurIn, if_neg (by omega), if_neg (by omega)]
      exact ih hls
  | cons_cons l hsub ih =>
    rw [occurIn, if_pos rfl]
    exact ih (List.pairwise_cons.mp hls).2

/-- Whether every literal of `a` occurs in `b`, in which case `a` absorbs `b`. -/
def isSubsetOf (a b : Cube) : Bool :=
  occurIn a.literals b.literals

@[simp] theorem isSubsetOf_self (c : Cube) : c.isSubsetOf c = true := by
  rcases c with ⟨literals⟩
  induction literals with
  | nil => rfl
  | cons l literals ih =>
    rw [isSubsetOf, occurIn, if_pos rfl]
    exact ih

/-- The product term with the literals of the cube. -/
def term (c : Cube) : Term :=
  ⟨c.literals⟩

def eval (c : Cube) (v : Assignment) : Bool :=
  c.literals.all (·.eval v)

/-- An absorbed cube is true only where the absorbing one is. -/
theorem eval_of_isSubsetOf {a b : Cube} {v : Assignment} (h : a.isSubsetOf b = true)
    (hb : b.eval v = true) : a.eval v = true := by
  have hsub : a.literals.Sublist b.literals := sublist_of_occurIn h
  rw [eval, List.all_eq_true] at hb ⊢
  intro l hl
  exact hb l (hsub.subset hl)

end Cube

end ArrayLogic
