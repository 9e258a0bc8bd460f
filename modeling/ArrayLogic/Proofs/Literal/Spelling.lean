import ArrayLogic.Proofs.Literal
import ArrayLogic.Proofs.Text.Numeral

/-! # Spellings of a literal

An index may be written with leading zeros, so a literal has many spellings. Reading accepts all
spellings and no other text, and a literal is displayed in the spelling without leading zeros. The
index of a spelling is bounded, and the bound is where codes cease to fit a machine word.
-/

namespace ArrayLogic.Literal

open Text (decimalValue withoutLeadingZeros)

/-- The text with the given digits: a `~` for the complement, the letter `I`, and the digits. -/
def spelled (complemented : Bool) (digits : List Char) : String :=
  String.ofList ((if complemented then ['~'] else []) ++ 'I' :: digits)

theorem text_eq_spelled (l : Literal) :
    l.text = spelled l.isComplement (Nat.toDigits 10 l.index) := by
  rcases l with ⟨s, polarity⟩
  cases polarity <;> rfl

/-- A way to write a literal: with a `~` or without, and at least one digit, of a value of at most
`2 ^ 63 - 1`. -/
structure Spelling where
  complemented : Bool
  digits : List Char
  digits_ne_nil : digits ≠ []
  isDigit : ∀ c ∈ digits, c.isDigit = true
  value_le : decimalValue digits ≤ Nat.pow 2 63 - 1

namespace Spelling

def text (w : Spelling) : String :=
  spelled w.complemented w.digits

def index (w : Spelling) : Nat :=
  decimalValue w.digits

theorem index_lt (w : Spelling) : w.index < Nat.pow 2 63 :=
  Nat.lt_of_le_sub_one (Nat.two_pow_pos 63) w.value_le

/-- The literal that is written. -/
def literal (w : Spelling) : Literal :=
  ⟨⟨w.index, w.index_lt⟩, .complementIf w.complemented⟩

theorem code_literal (w : Spelling) : w.literal.code = 2 * w.index + w.complemented.toNat := by
  rcases w with ⟨complemented, digits⟩
  cases complemented <;> rfl

theorem text_literal (w : Spelling) :
    w.literal.text = spelled w.complemented (withoutLeadingZeros w.digits) := by
  rw [text_eq_spelled, isComplement, literal, Polarity.isComplement_complementIf,
    ← Text.toDigits_ofDigitChars w.digits_ne_nil w.isDigit, Text.ofDigitChars_eq_decimalValue]
  rfl

theorem written (w : Spelling) : w.literal.Written w.text.toList := by
  rcases w with ⟨complemented, digits, hne, hdigits, hvalue⟩
  have hsignal (s : Signal) (hs : s.index = decimalValue digits) : s.Written ('I' :: digits) :=
    ⟨digits, rfl, hne, hdigits, by rw [hs, Text.ofDigitChars_eq_decimalValue]⟩
  rw [text, spelled, String.toList_ofList]
  cases complemented
  · exact .direct (hsignal _ rfl)
  · exact .complement (hsignal _ rfl)

end Spelling

/-- Whatever writes a signal can stand in a spelling of both its literals. -/
theorem exists_spelling_of_written {s : Signal} {word : List Char} (h : s.Written word)
    (complemented : Bool) :
    ∃ w : Spelling, w.text.toList = (if complemented then ['~'] else []) ++ word ∧
      w.literal = ⟨s, .complementIf complemented⟩ := by
  rcases s with ⟨index, hindex⟩
  obtain ⟨digits, rfl, hne, hdigits, hvalue⟩ := h
  obtain rfl : decimalValue digits = index := by
    rw [← Text.ofDigitChars_eq_decimalValue, hvalue]
  exact ⟨⟨complemented, digits, hne, hdigits, Nat.le_sub_one_of_lt hindex⟩, String.toList_ofList,
    rfl⟩

theorem Written.exists_spelling {l : Literal} {word : List Char} (h : l.Written word) :
    ∃ w : Spelling, w.text.toList = word ∧ w.literal = l := by
  cases h with
  | direct hs => exact exists_spelling_of_written hs false
  | complement hs => exact exists_spelling_of_written hs true

variable {s : String}

theorem read?_toList_eq_some_iff {l : Literal} :
    read? s.toList = some l ↔ ∃ w : Spelling, w.text = s ∧ w.literal = l := by
  rw [read?_eq_some_iff]
  constructor
  · intro hwritten
    obtain ⟨w, htext, hliteral⟩ := hwritten.exists_spelling
    exact ⟨w, String.toList_injective htext, hliteral⟩
  · intro hparts
    obtain ⟨w, rfl, rfl⟩ := hparts
    exact w.written

theorem read?_toList_eq_none_iff : read? s.toList = none ↔ ¬ ∃ w : Spelling, w.text = s := by
  constructor
  · intro hread hspelling
    obtain ⟨w, hw⟩ := hspelling
    rw [read?_toList_eq_some_iff.mpr ⟨w, hw, rfl⟩] at hread
    exact absurd hread (Option.some_ne_none _)
  · intro hnone
    cases hread : read? s.toList with
    | none => rfl
    | some l =>
        obtain ⟨w, hw, -⟩ := read?_toList_eq_some_iff.mp hread
        exact absurd ⟨w, hw⟩ hnone

theorem parse_eq_ok_iff {l : Literal} :
    parse s = .ok l ↔ ∃ w : Spelling, w.text = s ∧ w.literal = l := by
  rw [← read?_toList_eq_some_iff, parse]
  cases read? s.toList <;> simp

/-- A text that spells no literal is reported as a whole. -/
theorem parse_eq_error_iff {e : SyntaxError} :
    parse s = .error e ↔ e.token = s ∧ ¬ ∃ w : Spelling, w.text = s := by
  rcases e with ⟨token⟩
  rw [← read?_toList_eq_none_iff, parse]
  cases read? s.toList <;> simp [eq_comm]

theorem parse_text (l : Literal) : parse l.text = .ok l := by
  rw [parse, text, String.toList_ofList, read?_chars]

/-! ## Codes as machine words -/

/-- The code as it is put together in a machine word: the index is shifted by one bit, and the
polarity takes the bit that becomes free. -/
def packed (index : Nat) (complemented : Bool) : BitVec 64 :=
  BitVec.ofNat 64 index <<< 1 ||| BitVec.ofNat 64 complemented.toNat

/-- The word holds the code exactly if the index is within its bound. Beyond it the shift loses the
highest bit. -/
theorem toNat_packed_eq_iff {index : Nat} {complemented : Bool} :
    (packed index complemented).toNat = 2 * index + complemented.toNat ↔
      index ≤ Nat.pow 2 63 - 1 := by
  constructor
  · intro hcode
    have hfits : (packed index complemented).toNat < 18446744073709551616 :=
      (packed index complemented).isLt
    show index ≤ 9223372036854775807
    omega
  · intro hle
    have hindex : index ≤ 9223372036854775807 := hle
    have hshift : index <<< 1 = 2 * index := by
      rw [Nat.shiftLeft_eq, Nat.pow_one, Nat.mul_comm]
    have hbit : complemented.toNat < 2 := Bool.toNat_lt complemented
    rw [packed, BitVec.toNat_or, BitVec.toNat_shiftLeft, BitVec.toNat_ofNat, BitVec.toNat_ofNat,
      Nat.mod_eq_of_lt (by omega), Nat.mod_eq_of_lt (by omega), Nat.mod_eq_of_lt (by omega),
      ← Nat.shiftLeft_add_eq_or_of_lt hbit, hshift]

theorem Spelling.toNat_packed (w : Spelling) :
    (packed w.index w.complemented).toNat = w.literal.code := by
  rw [code_literal]
  exact toNat_packed_eq_iff.mpr w.value_le

/-- Reading is exact. A text is read if it is a spelling, the code of the literal is twice the index
plus one for a complement and is not cut off in a machine word, and the literal is displayed as the
text without leading zeros. Every other text is reported as it is. The literal of every code is read
back from its display. -/
theorem parse_decodes_spellings (s : String) (code : BitVec 64) :
    ((∃ l, parse s = .ok l) ↔ ∃ w : Spelling, w.text = s) ∧
      (∀ l, parse s = .ok l ↔ ∃ w : Spelling, w.text = s ∧
        l.code = 2 * w.index + w.complemented.toNat ∧
        (packed w.index w.complemented).toNat = l.code ∧
        l.text = spelled w.complemented (withoutLeadingZeros w.digits)) ∧
      (∀ e, parse s = .error e ↔ e.token = s ∧ ¬ ∃ w : Spelling, w.text = s) ∧
      parse (ofCode code.toNat).text = .ok (ofCode code.toNat) ∧
      (ofCode code.toNat).code = code.toNat := by
  refine ⟨?_, ?_, fun _ => parse_eq_error_iff, parse_text _, code_ofCode code.isLt⟩
  · constructor
    · intro hparse
      obtain ⟨l, hl⟩ := hparse
      obtain ⟨w, hw, -⟩ := parse_eq_ok_iff.mp hl
      exact ⟨w, hw⟩
    · intro hspelling
      obtain ⟨w, hw⟩ := hspelling
      exact ⟨w.literal, parse_eq_ok_iff.mpr ⟨w, hw, rfl⟩⟩
  · intro l
    rw [parse_eq_ok_iff]
    constructor
    · intro hparts
      obtain ⟨w, hw, rfl⟩ := hparts
      exact ⟨w, hw, w.code_literal, w.toNat_packed, w.text_literal⟩
    · intro hparts
      obtain ⟨w, hw, hcode, -, -⟩ := hparts
      exact ⟨w, hw, code_injective (w.code_literal.trans hcode.symm)⟩

end ArrayLogic.Literal
