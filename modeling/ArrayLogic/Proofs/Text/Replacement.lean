import ArrayLogic.Proofs.Text.Spelling
import Mathlib.Data.List.SplitBy

/-! # Replacing words

A word of a text can be replaced by a text that cannot be taken for the continuation of a word in
front of it. The lexemes around the replaced word are found again, and those of the replacement
stand in its place.
-/

namespace ArrayLogic.Text

/-- The text with a replacement for every occurrence of a word. A longer word that contains it stays
as it is. -/
def replaceWord (rule : WordRule) (word replacement text : List Char) : List Char :=
  (text.splitBy fun c d => rule.starts c && rule.continues d).flatMap fun piece =>
    if piece = word then replacement else piece

variable {rule : WordRule} {word replacement : List Char}

theorem replaceWord_append {piece text : List Char} (hne : piece ≠ [])
    (hpiece : piece.IsChain fun c d => (rule.starts c && rule.continues d) = true)
    (hend : ∀ c ∈ piece.getLast?, (rule.starts c && text.head?.any rule.continues) = false) :
    replaceWord rule word replacement (piece ++ text) =
      (if piece = word then replacement else piece) ++ replaceWord rule word replacement text := by
  have hcut : (piece ++ text).splitBy (fun c d => rule.starts c && rule.continues d) =
      piece :: text.splitBy fun c d => rule.starts c && rule.continues d := by
    rw [List.splitBy_append, List.splitBy_of_isChain hne hpiece, List.singleton_append]
    intro c hc d hd
    have hjoin := hend c hc
    rw [Option.mem_def.mp hd, Option.any_some] at hjoin
    exact hjoin
  rw [replaceWord, hcut, List.flatMap_cons]
  rfl

theorem WordRule.IsWord.ne_singleton (hword : rule.IsWord word) {c : Char}
    (hc : rule.starts c = false) : [c] ≠ word := by
  rintro rfl
  obtain ⟨d, rest, heq, hd, -⟩ := hword
  obtain ⟨rfl, -⟩ := List.cons.inj heq
  simp [hc] at hd

/-- A character that starts no word stays as it is. -/
theorem replaceWord_cons (hword : rule.IsWord word) {c : Char} (hc : rule.starts c = false)
    (text : List Char) : replaceWord rule word replacement (c :: text) =
      c :: replaceWord rule word replacement text := by
  have happend := @replaceWord_append rule word replacement [c] text (List.cons_ne_nil c [])
    (.singleton c) (by simp [hc])
  rw [if_neg (hword.ne_singleton hc)] at happend
  exact happend

theorem isChain_word (hrule : rule.Lawful) {c : Char} {rest : List Char}
    (hc : rule.starts c = true) (hrest : ∀ d ∈ rest, rule.continues d = true) :
    (c :: rest).IsChain fun c d => (rule.starts c && rule.continues d) = true := by
  induction rest generalizing c with
  | nil => exact .singleton c
  | cons d rest ih =>
      obtain ⟨hd, hrest⟩ := List.forall_mem_cons.mp hrest
      apply List.isChain_cons_cons.mpr
      exact ⟨by simp [hc, hd], ih (hrule.starts_of_continues d hd) hrest⟩

/-- A maximal word is kept or replaced as a whole. -/
theorem replaceWord_word (hrule : rule.Lawful) {c : Char} {rest text : List Char}
    (hc : rule.starts c = true) (hrest : ∀ d ∈ rest, rule.continues d = true)
    (hend : rule.EndsWord text) : replaceWord rule word replacement (c :: rest ++ text) =
      (if c :: rest = word then replacement else c :: rest) ++
        replaceWord rule word replacement text := by
  apply replaceWord_append (List.cons_ne_nil c rest) (isChain_word hrule hc hrest)
  intro d _
  rw [WordRule.EndsWord] at hend
  rw [hend, Bool.and_false]

/-- Texts can be joined where no word goes on. -/
theorem Spells.append {first second : List Char} {earlier later : List (List Char)}
    (hfirst : Spells rule first earlier) (hend : rule.EndsWord second)
    (hsecond : Spells rule second later) : Spells rule (first ++ second) (earlier ++ later) := by
  induction hfirst with
  | nil => exact hsecond
  | separator hc _ ih => exact .separator hc ih
  | sign hblank hc _ ih => exact .sign hblank hc ih
  | word hc hword hrest _ ih =>
      rw [List.append_assoc]
      exact .word hc hword (hrest.append hend) ih

/-- A word in front of the text does not go on in the changed text either. -/
theorem endsWord_replaceWord (hrule : rule.Lawful) (hword : rule.IsWord word)
    (hreplacement : rule.EndsWord replacement) {text : List Char} {pieces : List (List Char)}
    (htext : Spells rule text pieces) (hend : rule.EndsWord text) :
    rule.EndsWord (replaceWord rule word replacement text) := by
  induction htext with
  | nil => exact rule.endsWord_nil
  | separator hc _ _ =>
      rw [replaceWord_cons hword (hrule.starts_eq_false hc)]
      exact hend
  | sign _ hc _ _ =>
      rw [replaceWord_cons hword hc]
      exact hend
  | word hc hrest hlast _ ih =>
      rw [replaceWord_word hrule hc hrest hlast]
      split
      · exact hreplacement.append (ih hlast)
      · exact hend

/-- The lexemes of the replacement stand where the word stood, and the others stay as they are. -/
theorem Spells.replaceWord {text : List Char} {pieces inner : List (List Char)}
    (htext : Spells rule text pieces) (hrule : rule.Lawful) (hword : rule.IsWord word)
    (hreplacement : Spells rule replacement inner) (hend : rule.EndsWord replacement) :
    Spells rule (replaceWord rule word replacement text)
      (pieces.flatMap fun piece => if piece = word then inner else [piece]) := by
  induction htext with
  | nil => exact .nil
  | separator hc _ ih =>
      rw [replaceWord_cons hword (hrule.starts_eq_false hc)]
      exact .separator hc ih
  | sign hblank hc _ ih =>
      rw [replaceWord_cons hword hc, List.flatMap_cons, if_neg (hword.ne_singleton hc)]
      exact .sign hblank hc ih
  | word hc hrest hlast htext ih =>
      have hlater := endsWord_replaceWord hrule hword hend htext hlast
      rw [replaceWord_word hrule hc hrest hlast, List.flatMap_cons]
      split
      · exact hreplacement.append hlater ih
      · exact .word hc hrest hlater ih

end ArrayLogic.Text
