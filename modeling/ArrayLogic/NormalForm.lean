import ArrayLogic.Term

/-! # Disjunctive normal forms

A normal form is a constant, one product, or a sum of products, where a product is a literal or a
group of literals. The written form nests at most two levels: `I2`, `And(I0, ~I1)` or
`Or(And(I0, I2), I3)`.
-/

namespace ArrayLogic

/-- One product of a normal form. -/
inductive Product where
  | literal (l : Literal)
  | group (literals : List Literal)
deriving DecidableEq, Repr

/-- A disjunctive normal form as it is written. -/
inductive NormalForm where
  | constant (value : Bool)
  | product (p : Product)
  | sum (products : List Product)
deriving DecidableEq, Repr

namespace Product

/-- The product term that the product stands for. -/
def term : Product → Term
  | literal l => ⟨[l]⟩
  | group literals => ⟨literals⟩

/-- The written form. A group without literals is the constant `1`. -/
def chars : Product → List Char
  | literal l => l.chars
  | group [] => ['1']
  | group literals =>
      ['A', 'n', 'd', '('] ++ [',', ' '].intercalate (literals.map Literal.chars) ++ [')']

end Product

namespace NormalForm

/-- The product terms in the order in which they are written. The constant `0` has none, the
constant `1` has the empty one. -/
def terms : NormalForm → List Term
  | constant false => []
  | constant true => [⟨[]⟩]
  | product p => [p.term]
  | sum products => products.map Product.term

/-- The written form. -/
def chars : NormalForm → List Char
  | constant false => ['0']
  | constant true => ['1']
  | product p => p.chars
  | sum products =>
      ['O', 'r', '('] ++ [',', ' '].intercalate (products.map Product.chars) ++ [')']

def text (form : NormalForm) : String :=
  String.ofList form.chars

end NormalForm

end ArrayLogic
