import ArrayLogic.Literal

/-! # Product terms

A term is the conjunction of a sequence of literals. The sequence is its identity: `I1,I2` and
`I2,I1` are different terms although they compute the same function, and each would take a column
of its own in a device.
-/

namespace ArrayLogic

/-- A conjunction of literals in a fixed order. -/
structure Term where
  literals : List Literal
deriving Repr

namespace Term

/-- Whether two sequences consist of the same literals, which have the same codes. -/
def sameLiterals : List Literal → List Literal → Bool
  | [], [] => true
  | k :: ks, l :: ls => k.code == l.code && sameLiterals ks ls
  | _, _ => false

theorem sameLiterals_iff {ks ls : List Literal} : sameLiterals ks ls = true ↔ ks = ls := by
  induction ks generalizing ls with
  | nil => cases ls <;> simp [sameLiterals]
  | cons k ks ih =>
    cases ls with
    | nil => simp [sameLiterals]
    | cons l ls =>
      have hcode : k.code = l.code ↔ k = l := ⟨Literal.code_injective, congrArg Literal.code⟩
      simp [sameLiterals, ih, hcode]

instance : DecidableEq Term := fun s t =>
  decidable_of_iff (sameLiterals s.literals t.literals = true) <| by
    rcases s with ⟨ks⟩
    rcases t with ⟨ls⟩
    simp [sameLiterals_iff]

def size (t : Term) : Nat :=
  t.literals.length

def isEmpty (t : Term) : Bool :=
  t.literals.isEmpty

/-- The product of the literals' values; the empty term is true. -/
def eval (t : Term) (v : Assignment) : Bool :=
  t.literals.all (·.eval v)

/-- The written form: the literals separated by commas, `1` for the empty term. -/
def chars (t : Term) : List Char :=
  match t.literals with
  | [] => ['1']
  | literals => [','].intercalate (literals.map Literal.chars)

def text (t : Term) : String :=
  String.ofList t.chars

/-- The literals as a bracketed list. -/
def listing (t : Term) : String :=
  "[" ++ ", ".intercalate (t.literals.map Literal.text) ++ "]"

end Term

end ArrayLogic
