import ArrayLogic.Text.Numeral

/-! # Input signals

Inputs are numbered from zero and written `I0`, `I1`, and so on. An index is bounded so that the two
rows of a signal have numbers that fit a machine word.
-/

namespace ArrayLogic

/-- An input signal of a device. -/
structure Signal where
  index : Nat
  index_lt : index < Nat.pow 2 63
deriving DecidableEq, Repr

namespace Signal

/-- The signal of an index, which counts modulo `2 ^ 63`. -/
def ofIndex (index : Nat) : Signal :=
  ⟨index % Nat.pow 2 63, Nat.mod_lt _ (Nat.two_pow_pos 63)⟩

theorem ofIndex_index (s : Signal) : ofIndex s.index = s := by
  rcases s with ⟨index, hindex⟩
  simp only [ofIndex, Nat.mod_eq_of_lt hindex]

/-- The signal of an index, if the index is within bounds. -/
def ofIndex? (index : Nat) : Option Signal :=
  if h : index < Nat.pow 2 63 then some ⟨index, h⟩ else none

theorem ofIndex?_index (s : Signal) : ofIndex? s.index = some s :=
  dif_pos s.index_lt

/-- The written form: the letter `I` and the index. -/
def chars (s : Signal) : List Char :=
  'I' :: Nat.toDigits 10 s.index

def text (s : Signal) : String :=
  String.ofList s.chars

/-- Reads a signal. The index may have leading zeros. -/
def read? : List Char → Option Signal
  | 'I' :: digits => (Text.number? digits).bind ofIndex?
  | _ => none

theorem read?_chars (s : Signal) : read? s.chars = some s := by
  rw [chars, read?, Text.number?_toDigits, Option.bind_some, ofIndex?_index]

/-- Adds a signal to a list in strictly increasing order of indices. -/
def insertSorted (s : Signal) : List Signal → List Signal
  | [] => [s]
  | t :: rest =>
      if s.index < t.index then s :: t :: rest
      else if s = t then t :: rest
      else t :: insertSorted s rest

end Signal

/-- A value for every input signal. -/
abbrev Assignment := Signal → Bool

end ArrayLogic
