import ArrayLogic.Cube
import ArrayLogic.NormalForm

/-! # Covers

A cover is a disjunction of cubes in which no cube absorbs another. Cubes keep the order in which
they were derived. The empty cover is the constant `0`, and the cover that holds only the empty cube
is the constant `1`.
-/

namespace ArrayLogic

/-- A disjunction of cubes. -/
structure Cover where
  cubes : List Cube
deriving DecidableEq, Repr

namespace Cover

def zero : Cover :=
  ⟨[]⟩

def one : Cover :=
  ⟨[.empty]⟩

def ofLiteral (l : Literal) : Cover :=
  ⟨[.ofLiteral l]⟩

def isZero (c : Cover) : Bool :=
  c.cubes.isEmpty

def isOne (c : Cover) : Bool :=
  match c.cubes with
  | [cube] => cube.isEmpty
  | _ => false

/-- Adds a cube unless a present one absorbs it, and removes those that it absorbs. -/
def push (c : Cover) (cube : Cube) : Cover :=
  if c.cubes.any (·.isSubsetOf cube) then c
  else ⟨c.cubes.filter (fun kept => !cube.isSubsetOf kept) ++ [cube]⟩

/-- The disjunction of two covers. -/
def or (a b : Cover) : Cover :=
  b.cubes.foldl push a

/-- The satisfiable conjunctions of a cube of `a` with a cube of `b`, in order of position. -/
def products (a b : Cover) : List Cube :=
  a.cubes.flatMap fun x => b.cubes.filterMap x.and

/-- The conjunction of two covers. -/
def and (a b : Cover) : Cover :=
  (products a b).foldl push zero

/-- One product term per cube. -/
def terms (c : Cover) : List Term :=
  c.cubes.map Cube.term

def eval (c : Cover) (v : Assignment) : Bool :=
  c.cubes.any (·.eval v)

/-- Absorption does not change the function. -/
theorem eval_push (c : Cover) (cube : Cube) (v : Assignment) :
    (c.push cube).eval v = (c.eval v || cube.eval v) := by
  rw [Bool.eq_iff_iff, Bool.or_eq_true]
  simp only [push, eval]
  split
  next habsorbed =>
    obtain ⟨kept, hkept, hsub⟩ := List.any_eq_true.mp habsorbed
    refine ⟨Or.inl, fun h => h.elim id fun hcube => ?_⟩
    exact List.any_eq_true.mpr ⟨kept, hkept, Cube.eval_of_isSubsetOf hsub hcube⟩
  next =>
    simp only [List.any_append, List.any_filter, Bool.or_eq_true, List.any_cons, List.any_nil,
      Bool.or_false, List.any_eq_true, Bool.and_eq_true]
    constructor
    · rintro (⟨kept, hkept, -, hv⟩ | hcube)
      · exact .inl ⟨kept, hkept, hv⟩
      · exact .inr hcube
    · rintro (⟨kept, hkept, hv⟩ | hcube)
      · by_cases hsub : cube.isSubsetOf kept = true
        · exact .inr (Cube.eval_of_isSubsetOf hsub hv)
        · exact .inl ⟨kept, hkept, by simp [hsub], hv⟩
      · exact .inr hcube

theorem eval_foldl_push (cubes : List Cube) (c : Cover) (v : Assignment) :
    (cubes.foldl push c).eval v = (c.eval v || cubes.any (·.eval v)) := by
  induction cubes generalizing c with
  | nil => simp
  | cons cube rest ih => rw [List.foldl_cons, ih, eval_push, List.any_cons, Bool.or_assoc]

theorem eval_or (a b : Cover) (v : Assignment) : (a.or b).eval v = (a.eval v || b.eval v) :=
  eval_foldl_push b.cubes a v

/-- The product of a cube; `And` is written only for several literals. -/
def product (cube : Cube) : Product :=
  match cube.literals with
  | [l] => .literal l
  | literals => .group literals

/-- The cover as a normal form; a sum is written only for several cubes. -/
def normalForm (c : Cover) : NormalForm :=
  match c.cubes with
  | [] => .constant false
  | [cube] => if cube.isEmpty then .constant true else .product (product cube)
  | cubes => .sum (cubes.map product)

/-- The canonical text of the cover. -/
def text (c : Cover) : String :=
  c.normalForm.text

end Cover

end ArrayLogic
