import ArrayLogic.Proofs.Traversal
import ArrayLogic.Text.Lexeme
import Mathlib.Data.List.Chain

/-! # Spelling

Cutting a text into lexemes has an inverse that is not unique: the same lexemes can be spelled with
more or fewer separators between them. A text spells a sequence of lexemes exactly if it is cut into
that sequence.
-/

namespace ArrayLogic.Text

/-- No separator starts a word, and what goes on with a word could start one. -/
structure WordRule.Lawful (rule : WordRule) : Prop where
  starts_not_separator : ∀ c, rule.starts c = true → isSeparator c = false
  starts_of_continues : ∀ c, rule.continues c = true → rule.starts c = true

theorem WordRule.lawful_of_separators {rule : WordRule}
    (hseparators : [' ', '\t', '\n', '\x0c', '\r'].any rule.starts = false)
    (hcontinues : ∀ c, rule.continues c = true → rule.starts c = true) : rule.Lawful := by
  refine ⟨?_, hcontinues⟩
  intro c hc
  cases hseparator : isSeparator c with
  | false => rfl
  | true =>
      have hmem : c ∈ [' ', '\t', '\n', '\x0c', '\r'] := by
        simpa [isSeparator, or_assoc] using hseparator
      exact absurd hc (List.any_eq_false.mp hseparators c hmem)

/-- The text does not go on with a word that ends in front of it. -/
def WordRule.EndsWord (rule : WordRule) (text : List Char) : Prop :=
  text.head?.any rule.continues = false

theorem WordRule.endsWord_nil (rule : WordRule) : rule.EndsWord [] :=
  rfl

theorem WordRule.endsWord_cons {rule : WordRule} {c : Char} (h : rule.continues c = false)
    (text : List Char) : rule.EndsWord (c :: text) :=
  h

theorem WordRule.EndsWord.append {rule : WordRule} {first second : List Char}
    (h : rule.EndsWord first) (hsecond : rule.EndsWord second) :
    rule.EndsWord (first ++ second) := by
  cases first with
  | nil => exact hsecond
  | cons c first => exact h

/-- The text consists of the lexemes, with separators anywhere between them. A word is as long as
it can be. -/
inductive Spells (rule : WordRule) : List Char → List (List Char) → Prop
  | nil : Spells rule [] []
  | separator {c : Char} {text : List Char} {later : List (List Char)}
      (hc : isSeparator c = true) (rest : Spells rule text later) : Spells rule (c :: text) later
  | sign {c : Char} {text : List Char} {later : List (List Char)} (hblank : isSeparator c = false)
      (hc : rule.starts c = false) (rest : Spells rule text later) :
      Spells rule (c :: text) ([c] :: later)
  | word {c : Char} {word text : List Char} {later : List (List Char)} (hc : rule.starts c = true)
      (hword : ∀ d ∈ word, rule.continues d = true) (hend : rule.EndsWord text)
      (rest : Spells rule text later) : Spells rule (c :: word ++ text) ((c :: word) :: later)

variable {rule : WordRule}

theorem Spells.items_lexemes (hrule : rule.Lawful) {text : List Char} {words : List (List Char)}
    (h : Spells rule text words) (offset : Nat) :
    (lexemes rule offset text).map (·.item) = words := by
  induction h generalizing offset with
  | nil => rfl
  | separator hc _ ih =>
      rw [lexemes, if_pos hc]
      exact ih _
  | sign hblank hc _ ih =>
      rw [lexemes]
      simp [hblank, WordRule.joins, hc, ih]
  | word hc hword hend _ ih =>
      rw [lexemes_word hrule.starts_not_separator hrule.starts_of_continues hc hword hend,
        List.map_cons, ih]

/-- A character in front of a word that it starts becomes its first character. -/
theorem Spells.cons_word (hrule : rule.Lawful) {c d : Char} (hc : rule.starts c = true)
    (hd : rule.continues d = true) {text : List Char} {words : List (List Char)}
    (h : Spells rule (d :: text) words) : ∃ word later, words = word :: later ∧
      Spells rule (c :: d :: text) ((c :: word) :: later) := by
  have hstart := hrule.starts_of_continues d hd
  generalize htext : d :: text = whole at h
  cases h with
  | nil => simp at htext
  | separator hseparator _ =>
      obtain ⟨rfl, -⟩ := List.cons.inj htext
      simp [hrule.starts_not_separator d hstart] at hseparator
  | sign _ hsign _ =>
      obtain ⟨rfl, -⟩ := List.cons.inj htext
      simp [hstart] at hsign
  | @word e word rest later he hword hend hrest =>
      obtain ⟨rfl, rfl⟩ := List.cons.inj htext
      refine ⟨d :: word, later, rfl, ?_⟩
      change Spells rule (c :: (d :: word) ++ rest) _
      refine .word hc ?_ hend hrest
      intro x hx
      rcases List.mem_cons.mp hx with rfl | hx
      · exact hd
      · exact hword x hx

theorem spells_lexemes (hrule : rule.Lawful) (text : List Char) (offset : Nat) :
    Spells rule text ((lexemes rule offset text).map (·.item)) := by
  induction text generalizing offset with
  | nil => exact .nil
  | cons c rest ih =>
      rw [lexemes]
      have hrest := ih (offset + c.utf8Size)
      split
      next hc => exact .separator hc hrest
      next hblank =>
        have hblank : isSeparator c = false := by simpa using hblank
        split
        next hjoins =>
          obtain ⟨hc, hnext⟩ := Bool.and_eq_true_iff.mp hjoins
          cases rest with
          | nil => simp at hnext
          | cons d rest =>
              -- The character extends the word that the rest of the text begins with.
              obtain ⟨word, later, hwords, hspells⟩ :=
                hrest.cons_word hrule hc (by simpa using hnext)
              obtain ⟨first, others, hlexemes, rfl, rfl⟩ := List.map_eq_cons_iff.mp hwords
              rw [hlexemes]
              exact hspells
        next hjoins =>
          by_cases hc : rule.starts c = true
          · have hend : rule.EndsWord rest := by
              simpa [WordRule.joins, hc, WordRule.EndsWord] using hjoins
            change Spells rule (c :: [] ++ rest) _
            exact .word hc (by simp) hend hrest
          · exact .sign hblank (by simpa using hc) hrest

/-- A text spells exactly the lexemes that it is cut into. -/
theorem spells_iff (hrule : rule.Lawful) {text : List Char} {words : List (List Char)}
    (offset : Nat) : Spells rule text words ↔ (lexemes rule offset text).map (·.item) = words :=
  ⟨fun h => h.items_lexemes hrule offset, fun h => h ▸ spells_lexemes hrule text offset⟩

/-! ## Pieces with separators around them -/

/-- The text consists of the pieces in order, with separators anywhere in front of, between and
behind them. Nothing keeps two neighbouring words apart. -/
inductive Spaced : List Char → List (List Char) → Prop
  | nil : Spaced [] []
  | separator {c : Char} {text : List Char} {later : List (List Char)}
      (hc : isSeparator c = true) (rest : Spaced text later) : Spaced (c :: text) later
  | piece {text : List Char} {later : List (List Char)} (piece : List Char)
      (rest : Spaced text later) : Spaced (piece ++ text) (piece :: later)

theorem Spaced.singleton (piece : List Char) : Spaced piece [piece] := by
  simpa using Spaced.piece piece .nil

theorem Spaced.append {first second : List Char} {earlier later : List (List Char)}
    (hfirst : Spaced first earlier) (hsecond : Spaced second later) :
    Spaced (first ++ second) (earlier ++ later) := by
  induction hfirst with
  | nil => exact hsecond
  | separator hc _ ih => exact .separator hc ih
  | piece piece _ ih =>
      rw [List.append_assoc]
      exact .piece piece ih

theorem Spaced.flatten (pieces : List (List Char)) : Spaced pieces.flatten pieces := by
  induction pieces with
  | nil => exact .nil
  | cons piece later ih => exact .piece piece ih

theorem Spells.spaced {text : List Char} {words : List (List Char)} (h : Spells rule text words) :
    Spaced text words := by
  induction h with
  | nil => exact .nil
  | separator hc _ ih => exact .separator hc ih
  | @sign c _ _ _ _ _ ih => exact .piece [c] ih
  | word _ _ _ _ ih => exact .piece _ ih

/-- The piece is a single character that stands for itself. -/
def WordRule.IsSign (rule : WordRule) (piece : List Char) : Prop :=
  ∃ c, piece = [c] ∧ isSeparator c = false ∧ rule.starts c = false

def WordRule.IsWord (rule : WordRule) (piece : List Char) : Prop :=
  ∃ c word, piece = c :: word ∧ rule.starts c = true ∧ ∀ d ∈ word, rule.continues d = true

/-- Lexemes are signs and words, and have no characters but those of the text. -/
theorem Spells.isSign_or_isWord {text : List Char} {words : List (List Char)}
    (h : Spells rule text words) :
    ∀ word ∈ words, (rule.IsSign word ∨ rule.IsWord word) ∧ word ⊆ text := by
  induction h with
  | nil => simp
  | separator hc _ ih =>
      intro word hword
      obtain ⟨hpiece, hsubset⟩ := ih word hword
      exact ⟨hpiece, List.subset_cons_of_subset _ hsubset⟩
  | @sign c text later hblank hc _ ih =>
      refine List.forall_mem_cons.mpr ⟨⟨.inl ⟨c, rfl, hblank, hc⟩, by simp⟩, ?_⟩
      intro word hword
      obtain ⟨hpiece, hsubset⟩ := ih word hword
      exact ⟨hpiece, List.subset_cons_of_subset _ hsubset⟩
  | @word c word text later hc hword _ _ ih =>
      refine List.forall_mem_cons.mpr
        ⟨⟨.inr ⟨c, word, rfl, hc, hword⟩, List.subset_append_left _ _⟩, ?_⟩
      intro other hother
      obtain ⟨hpiece, hsubset⟩ := ih other hother
      exact ⟨hpiece, List.subset_append_of_subset_right _ hsubset⟩

theorem WordRule.Lawful.starts_eq_false (hrule : rule.Lawful) {c : Char}
    (hc : isSeparator c = true) : rule.starts c = false := by
  rw [Bool.eq_false_iff]
  intro hstarts
  simp [hrule.starts_not_separator c hstarts] at hc

theorem WordRule.Lawful.continues_eq_false (hrule : rule.Lawful) {c : Char}
    (hc : rule.starts c = false) : rule.continues c = false := by
  rw [Bool.eq_false_iff] at hc ⊢
  exact fun h => hc (hrule.starts_of_continues c h)

/-- Neither a separator nor a sign goes on with a word in front of it. -/
theorem Spaced.endsWord (hrule : rule.Lawful) {text : List Char} {pieces : List (List Char)}
    (h : Spaced text pieces) (hhead : ∀ piece ∈ pieces.head?, rule.IsSign piece) :
    rule.EndsWord text := by
  cases h with
  | nil => exact rule.endsWord_nil
  | separator hc _ =>
      apply WordRule.endsWord_cons
      exact hrule.continues_eq_false (hrule.starts_eq_false hc)
  | piece piece _ =>
      obtain ⟨c, rfl, -, hc⟩ := hhead piece rfl
      exact WordRule.endsWord_cons (hrule.continues_eq_false hc) _

/-- Where no two words are neighbours, the pieces are the lexemes of the text. -/
theorem Spaced.spells (hrule : rule.Lawful) {text : List Char} {pieces : List (List Char)}
    (h : Spaced text pieces) (hpieces : ∀ piece ∈ pieces, rule.IsSign piece ∨ rule.IsWord piece)
    (hneighbours : pieces.IsChain fun first second => rule.IsSign first ∨ rule.IsSign second) :
    Spells rule text pieces := by
  induction h with
  | nil => exact .nil
  | separator hc _ ih => exact .separator hc (ih hpieces hneighbours)
  | piece piece rest ih =>
      obtain ⟨hpiece, hlater⟩ := List.forall_mem_cons.mp hpieces
      have hrest := ih hlater hneighbours.of_cons
      by_cases hsign : rule.IsSign piece
      · obtain ⟨c, rfl, hblank, hc⟩ := hsign
        exact .sign hblank hc hrest
      · obtain ⟨c, word, rfl, hc, hword⟩ := hpiece.resolve_left hsign
        refine .word hc hword (rest.endsWord hrule ?_) hrest
        intro next hnext
        exact (hneighbours.rel_head? hnext).resolve_left hsign

/-! ## Symbols -/

/-- Lexemes that write symbols are recognised as these symbols, if each of them is. -/
theorem exists_mapM_of_forall₂ {σ ε : Type} {written : σ → List Char → Prop}
    {recognise : Located (List Char) → Except ε (Located σ)} {pieces : List (Located (List Char))}
    {found : List σ} (hrecognise : ∀ s word, s ∈ found → written s word →
      ∀ offset, recognise ⟨offset, word⟩ = .ok ⟨offset, s⟩)
    (h : List.Forall₂ written found (pieces.map (·.item))) :
    ∃ located, pieces.mapM recognise = .ok located ∧ located.map (·.item) = found := by
  rw [List.forall₂_map_right_iff] at h
  induction h with
  | nil => exact ⟨[], rfl, rfl⟩
  | @cons s piece found pieces hpiece _ ih =>
      obtain ⟨located, hlocated, hitems⟩ :=
        ih fun t word ht => hrecognise t word (List.mem_cons_of_mem _ ht)
      refine ⟨⟨piece.offset, s⟩ :: located, mapM_eq_ok_iff.mpr ?_, by rw [List.map_cons, hitems]⟩
      exact .cons (hrecognise s _ List.mem_cons_self hpiece _) (mapM_eq_ok_iff.mp hlocated)

end ArrayLogic.Text
