import ArrayLogic.Literal

/-! # Written literals

A literal can be written in many ways, since its index may have leading zeros. Reading accepts all
of them and nothing else.
-/

namespace ArrayLogic

theorem Text.number?_eq_some_iff {digits : List Char} {n : Nat} :
    number? digits = some n ↔ digits ≠ [] ∧ (∀ c ∈ digits, c.isDigit = true) ∧
      Nat.ofDigitChars 10 digits 0 = n := by
  simp [number?, and_assoc]

namespace Signal

/-- The word writes the signal: the letter `I` and at least one digit, with the index as value. -/
def Written (s : Signal) (word : List Char) : Prop :=
  ∃ digits, word = 'I' :: digits ∧ digits ≠ [] ∧ (∀ c ∈ digits, c.isDigit = true) ∧
    Nat.ofDigitChars 10 digits 0 = s.index

theorem ofIndex?_eq_some_iff {index : Nat} {s : Signal} :
    ofIndex? index = some s ↔ index = s.index := by
  constructor
  · intro h
    unfold ofIndex? at h
    split at h
    · rw [← Option.some.inj h]
    · simp at h
  · rintro rfl
    exact ofIndex?_index s

theorem read?_eq_some_iff {word : List Char} {s : Signal} :
    read? word = some s ↔ s.Written word := by
  constructor
  · intro h
    unfold read? at h
    split at h
    next digits =>
      obtain ⟨index, hnumber, hindex⟩ := Option.bind_eq_some_iff.mp h
      obtain ⟨hne, hdigits, rfl⟩ := Text.number?_eq_some_iff.mp hnumber
      exact ⟨digits, rfl, hne, hdigits, ofIndex?_eq_some_iff.mp hindex⟩
    next => simp at h
  · rintro ⟨digits, rfl, hne, hdigits, hindex⟩
    rw [read?, Text.number?_eq_some_iff.mpr ⟨hne, hdigits, hindex⟩, Option.bind_some,
      ofIndex?_index]

end Signal

namespace Literal

/-- Every number that fits a machine word is the code of a literal. -/
theorem code_ofCode {n : Nat} (h : n < Nat.pow 2 64) : (ofCode n).code = n := by
  have hhalf : n / 2 < Nat.pow 2 63 := Nat.div_lt_of_lt_mul h
  have hindex : (Signal.ofIndex (n / 2)).index = n / 2 := Nat.mod_eq_of_lt hhalf
  have hoffset : (Polarity.complementIf (n % 2 == 1)).offset = n % 2 := by
    rcases Nat.mod_two_eq_zero_or_one n with heven | hodd
    · rw [heven]
      rfl
    · rw [hodd]
      rfl
  rw [code, ofCode, hindex, hoffset, Nat.div_add_mod]

/-- The word writes the literal. The complement sign stands directly in front of the signal. -/
inductive Written : Literal → List Char → Prop
  | direct {s : Signal} {word : List Char} (h : s.Written word) : Written ⟨s, .direct⟩ word
  | complement {s : Signal} {word : List Char} (h : s.Written word) :
      Written ⟨s, .complement⟩ ('~' :: word)

theorem read?_eq_some_iff {word : List Char} {l : Literal} :
    read? word = some l ↔ l.Written word := by
  constructor
  · intro h
    unfold read? at h
    split at h
    next rest =>
      obtain ⟨s, hs, rfl⟩ := Option.map_eq_some_iff.mp h
      exact .complement (Signal.read?_eq_some_iff.mp hs)
    next =>
      obtain ⟨s, hs, rfl⟩ := Option.map_eq_some_iff.mp h
      exact .direct (Signal.read?_eq_some_iff.mp hs)
  · intro h
    cases h with
    | direct hs =>
        have hread := Signal.read?_eq_some_iff.mpr hs
        obtain ⟨digits, rfl, -⟩ := hs
        rw [read?, hread]
        · rfl
        · simp
    | complement hs =>
        rw [read?, Signal.read?_eq_some_iff.mpr hs]
        rfl

end Literal

end ArrayLogic
