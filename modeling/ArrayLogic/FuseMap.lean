import ArrayLogic.BitMatrix
import ArrayLogic.Device

/-! # Fuse maps

A fuse map is the complete configuration of a device: the AND plane connects literals to product
terms, and the OR plane connects product terms to outputs. The flat configuration lists the AND
plane row by row and then the OR plane.
-/

namespace ArrayLogic

open Text (bitChar)

/-- The configuration of a device of the given shape. -/
structure FuseMap (g : Geometry) where
  andPlane : BitMatrix g.andRows g.terms
  orPlane : BitMatrix g.outputs g.terms
  /-- The number of product terms in use. -/
  poolSize : Nat
  /-- The number of outputs in use. -/
  configured : Nat
deriving DecidableEq, Repr

namespace FuseMap

variable {g : Geometry}

/-- The length of the flat configuration. -/
def size (_ : FuseMap g) : Nat :=
  g.bitCount

def isEmpty (f : FuseMap g) : Bool :=
  f.size == 0

/-- The bit at a place of the flat configuration. -/
def bit? (f : FuseMap g) (place : Nat) : Option Bool :=
  if place < g.andBits then f.andPlane.bit? (place / g.terms) (place % g.terms)
  else if place < g.bitCount then
    f.orPlane.bit? ((place - g.andBits) / g.terms) ((place - g.andBits) % g.terms)
  else none

/-- The flat configuration. -/
def bits (f : FuseMap g) : List Bool :=
  f.andPlane.bits ++ f.orPlane.bits

@[simp] theorem length_bits (f : FuseMap g) : f.bits.length = f.size := by
  simp [bits, size, Geometry.bitCount, Geometry.andBits, Geometry.orBits, Nat.mul_comm]

/-- The flat configuration as digits. -/
def bitChars (f : FuseMap g) : List Char :=
  f.bits.map bitChar

end FuseMap

end ArrayLogic
