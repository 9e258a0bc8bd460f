import ArrayLogic.Text.Numeral

/-! # Values of numerals

The value of a numeral weights every digit by its place. Reading computes this value digit by digit,
and writing the value gives back the numeral, except for leading zeros.
-/

namespace ArrayLogic.Text

/-- The value of a sequence of decimal digits. The last one counts once, and each of the others ten
times as much as the one behind it. -/
def decimalValue : List Char → Nat
  | [] => 0
  | c :: rest => (c.toNat - '0'.toNat) * Nat.pow 10 rest.length + decimalValue rest

theorem ofDigitChars_eq_decimalValue (digits : List Char) :
    Nat.ofDigitChars 10 digits 0 = decimalValue digits := by
  induction digits with
  | nil => rfl
  | cons c rest ih =>
      rw [Nat.ofDigitChars_cons, Nat.mul_zero, Nat.zero_add, Nat.ofDigitChars_eq_ofDigitChars_zero,
        ih, Nat.mul_comm]
      rfl

/-- The numeral without leading zeros. The last digit stays, even if it is a zero. -/
def withoutLeadingZeros : List Char → List Char
  | c :: d :: rest => if c = '0' then withoutLeadingZeros (d :: rest) else c :: d :: rest
  | digits => digits

variable {c : Char} {digits : List Char}

theorem notMem_toDigits (h : c.isDigit = false) (n : Nat) : c ∉ Nat.toDigits 10 n := by
  intro hmem
  have hdigit : c.isDigit = true := Nat.isDigit_of_mem_toDigits (by decide) (by decide) hmem
  exact Bool.false_ne_true (h.symm.trans hdigit)

theorem digit_lt_ten (h : c.isDigit = true) : c.toNat - '0'.toNat < 10 := by
  have hhigh : c.toNat ≤ 57 := (Char.isDigit_iff_toNat.mp h).2
  show c.toNat - 48 < 10
  omega

theorem digit_pos (h : c.isDigit = true) (hzero : c ≠ '0') : 0 < c.toNat - '0'.toNat := by
  have hlow : 48 ≤ c.toNat := (Char.isDigit_iff_toNat.mp h).1
  have hne : c.toNat ≠ 48 := fun heq => hzero (Char.toNat_inj.mp heq)
  show 0 < c.toNat - 48
  omega

theorem toDigits_digit (h : c.isDigit = true) : Nat.toDigits 10 (c.toNat - '0'.toNat) = [c] := by
  have hlow : '0'.toNat ≤ c.toNat := (Char.isDigit_iff_toNat.mp h).1
  have hchar : (c.toNat - '0'.toNat).digitChar = c := by
    apply Char.toNat_inj.mp
    rw [Nat.toNat_digitChar_of_lt_ten (digit_lt_ten h)]
    exact Nat.add_sub_cancel' hlow
  rw [Nat.toDigits_of_lt_base (digit_lt_ten h), hchar]

/-- Behind a positive number every digit that is read appears in the numeral. -/
theorem toDigits_ofDigitChars_of_pos (h : ∀ c ∈ digits, c.isDigit = true) {n : Nat} (hn : 0 < n) :
    Nat.toDigits 10 (Nat.ofDigitChars 10 digits n) = Nat.toDigits 10 n ++ digits := by
  induction digits generalizing n with
  | nil => rw [Nat.ofDigitChars_nil, List.append_nil]
  | cons c rest ih =>
      obtain ⟨hc, hrest⟩ := List.forall_mem_cons.mp h
      rw [Nat.ofDigitChars_cons, ih hrest (by omega),
        ← Nat.toDigits_append_toDigits (by decide) hn (digit_lt_ten hc), toDigits_digit hc,
        List.append_assoc, List.singleton_append]

/-- The value of a numeral is written as the numeral without leading zeros. -/
theorem toDigits_ofDigitChars (hne : digits ≠ []) (h : ∀ c ∈ digits, c.isDigit = true) :
    Nat.toDigits 10 (Nat.ofDigitChars 10 digits 0) = withoutLeadingZeros digits := by
  fun_induction withoutLeadingZeros digits with
  | case1 d rest ih =>
      rw [Nat.ofDigitChars_cons]
      exact ih (List.cons_ne_nil d rest) (List.forall_mem_cons.mp h).2
  | case2 c d rest hzero =>
      obtain ⟨hc, hrest⟩ := List.forall_mem_cons.mp h
      rw [Nat.ofDigitChars_cons, Nat.mul_zero, Nat.zero_add,
        toDigits_ofDigitChars_of_pos hrest (digit_pos hc hzero), toDigits_digit hc,
        List.singleton_append]
  | case3 digits hshort =>
      obtain ⟨c, rest, rfl⟩ := List.exists_cons_of_ne_nil hne
      obtain rfl : rest = [] := by
        cases rest with
        | nil => rfl
        | cons d rest => exact absurd rfl (hshort c d rest)
      rw [Nat.ofDigitChars_cons, Nat.mul_zero, Nat.zero_add, Nat.ofDigitChars_nil]
      exact toDigits_digit (h c List.mem_cons_self)

end ArrayLogic.Text
