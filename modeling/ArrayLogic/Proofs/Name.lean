import ArrayLogic.Name

/-! # Names and their numbers

A number has one numeral, so outputs and temporaries have one name each, and a name tells its
number.
-/

namespace ArrayLogic

open Text (index? indexBound)

theorem Text.index?_eq_some_iff {digits : List Char} {n : Nat} :
    index? digits = some n ↔ digits = Nat.toDigits 10 n ∧ n < indexBound := by
  constructor
  · intro h
    have hkept := (Option.filter_eq_some_iff.mp h).2
    rw [Bool.and_eq_true, decide_eq_true_eq] at hkept
    exact ⟨eq_toDigits_of_index? h, hkept.2⟩
  · intro hparts
    obtain ⟨rfl, hn⟩ := hparts
    exact index?_toDigits hn

namespace Name

/-- The name of a temporary. -/
def temporary (index : Nat) : String :=
  String.ofList ('T' :: Nat.toDigits 10 index)

/-- The definable names are those of outputs and temporaries. -/
theorem isDefinable_iff {name : List Char} : isDefinable name = true ↔
    ∃ k < indexBound, name = (output k).toList ∨ name = (temporary k).toList := by
  simp only [output, temporary, String.toList_ofList]
  constructor
  · intro h
    unfold isDefinable at h
    split at h
    next digits =>
      obtain ⟨k, hk⟩ := Option.isSome_iff_exists.mp h
      obtain ⟨rfl, hbound⟩ := Text.index?_eq_some_iff.mp hk
      exact ⟨k, hbound, .inl rfl⟩
    next digits =>
      obtain ⟨k, hk⟩ := Option.isSome_iff_exists.mp h
      obtain ⟨rfl, hbound⟩ := Text.index?_eq_some_iff.mp hk
      exact ⟨k, hbound, .inr rfl⟩
    next => simp at h
  · rintro ⟨k, hk, rfl | rfl⟩
    · simp [isDefinable, Text.index?_toDigits hk]
    · simp [isDefinable, Text.index?_toDigits hk]

theorem outputIndex?_eq_some_iff {name : String} {k : Nat} :
    outputIndex? name.toList = some k ↔ name = output k ∧ k < indexBound := by
  have hname : name = output k ↔ name.toList = 'O' :: Nat.toDigits 10 k := by
    rw [← String.toList_inj, output, String.toList_ofList]
  rw [hname]
  unfold outputIndex?
  split
  next digits hchars => rw [Text.index?_eq_some_iff, hchars, List.cons.injEq, eq_self, true_and]
  next hchars =>
    constructor
    · intro h
      simp at h
    · intro hparts
      obtain ⟨h, -⟩ := hparts
      exact absurd h (hchars _)

/-- No output has the name of a temporary. -/
theorem output_ne_temporary (k : Nat) (digits : List Char) :
    output k ≠ String.ofList ('T' :: digits) := by
  intro h
  have hchars := String.ofList_injective h
  simp at hchars

end Name

end ArrayLogic
