/-! # Polarities

Every input of a device drives two rows of the AND plane: the signal itself and its complement. A
polarity says which of the two is meant.
-/

namespace ArrayLogic

/-- Whether a signal is used as it is or through its inverter. -/
inductive Polarity where
  | direct
  | complement
deriving DecidableEq, Repr, Inhabited

namespace Polarity

/-- The complement if the condition holds, otherwise the direct polarity. -/
def complementIf (condition : Bool) : Polarity :=
  if condition then complement else direct

def isComplement : Polarity → Bool
  | direct => false
  | complement => true

def isDirect (p : Polarity) : Bool :=
  !p.isComplement

/-- The row of this polarity, counted from the direct row of its signal. -/
def offset : Polarity → Nat
  | direct => 0
  | complement => 1

/-- The polarity of a signal inverted twice, once as each argument says. -/
def xor (p q : Polarity) : Polarity :=
  complementIf (p.isComplement ^^ q.isComplement)

def flip (p : Polarity) : Polarity :=
  p.xor complement

def flipIf (condition : Bool) (p : Polarity) : Polarity :=
  p.xor (complementIf condition)

/-- The value that a signal of the given value has in this polarity. -/
def apply (p : Polarity) (value : Bool) : Bool :=
  value ^^ p.isComplement

@[simp] theorem isComplement_complementIf (condition : Bool) :
    (complementIf condition).isComplement = condition := by
  cases condition <;> rfl

@[simp] theorem isComplement_xor (p q : Polarity) :
    (p.xor q).isComplement = (p.isComplement ^^ q.isComplement) :=
  isComplement_complementIf _

theorem apply_xor (p q : Polarity) (value : Bool) :
    (p.xor q).apply value = (p.apply value ^^ q.isComplement) := by
  simp [apply]

theorem apply_apply (p : Polarity) (value : Bool) : p.apply (p.apply value) = value := by
  simp [apply]

theorem flip_flip (p : Polarity) : p.flip.flip = p := by
  cases p <;> rfl

theorem flipIf_false (p : Polarity) : p.flipIf false = p := by
  cases p <;> rfl

/-- The sign by which a polarity is shown on its own. -/
def text : Polarity → String
  | direct => "="
  | complement => "~"

/-- The direct polarity comes first. -/
instance : LT Polarity := ⟨fun p q => p.offset < q.offset⟩

instance (p q : Polarity) : Decidable (p < q) :=
  inferInstanceAs (Decidable (p.offset < q.offset))

end Polarity

end ArrayLogic
