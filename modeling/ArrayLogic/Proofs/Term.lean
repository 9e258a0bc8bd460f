import ArrayLogic.Proofs.Text.Numeral
import ArrayLogic.Proofs.Traversal
import ArrayLogic.Term

/-! # Texts of terms

A term can be told from its text. No literal contains a comma, so the text falls apart into the
texts of the literals in one way only, and the text `1` of the empty term is that of no literal.
-/

namespace ArrayLogic

theorem Literal.comma_notMem_chars (l : Literal) : ',' ∉ l.chars := by
  rcases l with ⟨s, polarity⟩
  have hdigits : ',' ∉ Nat.toDigits 10 s.index := Text.notMem_toDigits (by decide) s.index
  cases polarity
  · simp [chars, Signal.chars, hdigits]
  · simp [chars, Signal.chars, hdigits]

namespace Term

/-- The term that is written by literals between commas. Other text is taken for the empty term. -/
def ofChars (cs : List Char) : Term :=
  ⟨((cs.splitOn ',').mapM Literal.read?).getD []⟩

theorem ofChars_chars (t : Term) : ofChars t.chars = t := by
  rcases t with ⟨literals⟩
  cases literals with
  | nil =>
      -- The text `1` is no literal, so no literals are read.
      rfl
  | cons l rest =>
      have hsplit : (chars ⟨l :: rest⟩).splitOn ',' = (l :: rest).map Literal.chars := by
        apply List.splitOn_intercalate
        · intro piece hpiece
          obtain ⟨k, -, rfl⟩ := List.mem_map.mp hpiece
          exact k.comma_notMem_chars
        · exact List.cons_ne_nil _ _
      have hread : ((l :: rest).map Literal.chars).mapM Literal.read? = some (l :: rest) := by
        rw [List.mapM_map, mapM_eq_some_map fun k _ => k.read?_chars, List.map_id']
      rw [ofChars, hsplit, hread]
      rfl

theorem text_injective : Function.Injective text := by
  intro a b h
  have hchars : a.chars = b.chars := String.ofList_injective h
  rw [← ofChars_chars a, hchars, ofChars_chars]

/-- Terms are equal exactly if their texts consist of the same bytes. -/
theorem beq_iff_text_bytes_eq (a b : Term) : (a == b) = true ↔ a.text.toUTF8 = b.text.toUTF8 := by
  rw [beq_iff_eq, String.toUTF8_eq_toByteArray, String.toUTF8_eq_toByteArray,
    String.toByteArray_inj, text_injective.eq_iff]

end Term

end ArrayLogic
