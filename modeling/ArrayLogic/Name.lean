import ArrayLogic.Text.Numeral

/-! # Names of equations

Equations define outputs `O0`, `O1`, … and temporaries `T0`, `T1`, …. The number is written without
leading zeros, so that every output and temporary has exactly one name.
-/

namespace ArrayLogic.Name

open Text (index?)

/-- Whether a text is the name of an output or a temporary. -/
def isDefinable : List Char → Bool
  | 'O' :: digits => (index? digits).isSome
  | 'T' :: digits => (index? digits).isSome
  | _ => false

/-- Whether a text claims to name an input. -/
def isInput : List Char → Bool
  | 'I' :: _ => true
  | _ => false

/-- The number of the output that a text names. -/
def outputIndex? : List Char → Option Nat
  | 'O' :: digits => index? digits
  | _ => none

/-- The name of an output. -/
def output (index : Nat) : String :=
  String.ofList ('O' :: Nat.toDigits 10 index)

end ArrayLogic.Name
