/-! # Decimal numerals

`Nat.toDigits 10` writes a number; this module reads one back. An *index* is a numeral in the form
in which numbers are written, so without leading zeros, and has to fit a machine word.
-/

namespace ArrayLogic.Text

/-- The number written by a nonempty sequence of decimal digits, leading zeros allowed. -/
def number? (digits : List Char) : Option Nat :=
  if digits.isEmpty || !digits.all Char.isDigit then none
  else some (Nat.ofDigitChars 10 digits 0)

theorem number?_toDigits (n : Nat) : number? (Nat.toDigits 10 n) = some n := by
  have hdigits : (Nat.toDigits 10 n).all Char.isDigit = true := by
    rw [List.all_eq_true]
    intro c hc
    exact Nat.isDigit_of_mem_toDigits (by decide) (by decide) hc
  simp [number?, hdigits]

/-- Indices are below this bound. -/
def indexBound : Nat := Nat.pow 2 64

/-- The number whose numeral the digits are, provided that it is below `indexBound`. -/
def index? (digits : List Char) : Option Nat :=
  (number? digits).filter fun n => Nat.toDigits 10 n == digits && n < indexBound

theorem index?_toDigits {n : Nat} (h : n < indexBound) : index? (Nat.toDigits 10 n) = some n := by
  simp [index?, number?_toDigits, h]

/-- Only the numeral of a number is read as its index. -/
theorem eq_toDigits_of_index? {digits : List Char} {n : Nat} (h : index? digits = some n) :
    digits = Nat.toDigits 10 n := by
  have hkept := (Option.filter_eq_some_iff.mp h).2
  rw [Bool.and_eq_true, beq_iff_eq] at hkept
  exact hkept.1.symm

/-- The digit of a bit. -/
def bitChar (bit : Bool) : Char :=
  if bit then '1' else '0'

end ArrayLogic.Text
