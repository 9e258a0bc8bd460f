/-! # Devices

A device has `N` inputs, `P` product terms and `M` outputs. Its AND plane has two rows per input and
one column per term, its OR plane one row per output and the same columns. The configuration lists
the AND plane row by row and then the OR plane.
-/

namespace ArrayLogic

/-- The shape of a device. -/
structure Geometry where
  inputs : Nat
  terms : Nat
  outputs : Nat
deriving DecidableEq, Repr

namespace Geometry

/-- The number of rows of the AND plane. -/
def andRows (g : Geometry) : Nat :=
  2 * g.inputs

def andBits (g : Geometry) : Nat :=
  g.andRows * g.terms

def orBits (g : Geometry) : Nat :=
  g.terms * g.outputs

/-- The length of the configuration. -/
def bitCount (g : Geometry) : Nat :=
  g.andBits + g.orBits

/-- The place of an AND fuse in the configuration. -/
def andOffset (g : Geometry) (row term : Nat) : Nat :=
  g.terms * row + term

/-- The place of an OR fuse in the configuration. -/
def orOffset (g : Geometry) (output term : Nat) : Nat :=
  g.andBits + g.terms * output + term

end Geometry

/-- A device of a known shape. -/
structure Device where
  name : String
  geometry : Geometry
deriving DecidableEq, Repr

/-- The device of the sixth Tiny Tapeout shuttle. -/
def Device.tt06Pal : Device :=
  ⟨"tt06-pal", ⟨8, 11, 5⟩⟩

end ArrayLogic
