import ArrayLogic.Device
import ArrayLogic.Text.Numeral

/-! # Devices whose numbers fit a machine word

Rows and places of a device are counted in machine words. In a representable geometry none of the
counts leaves the range of a word.
-/

namespace ArrayLogic

open Text (indexBound)

/-- The numbers of rows and of places fit a machine word. -/
structure Geometry.Representable (g : Geometry) : Prop where
  andRows_lt : g.andRows < Nat.pow 2 64
  andBits_lt : g.andBits < Nat.pow 2 64
  orBits_lt : g.orBits < Nat.pow 2 64
  bitCount_lt : g.bitCount < Nat.pow 2 64

theorem Geometry.Representable.inputs_le {g : Geometry} (h : g.Representable) :
    g.inputs ≤ indexBound := by
  have hrows := h.andRows_lt
  unfold andRows at hrows
  unfold indexBound
  omega

end ArrayLogic
