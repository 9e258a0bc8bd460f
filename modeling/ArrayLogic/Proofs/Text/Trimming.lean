import ArrayLogic.Proofs.Traversal
import ArrayLogic.Text.Layout
import Mathlib.Data.List.TakeWhile

/-! # Trimmed texts

Trimming takes the blanks away that stand around a text. What is left is the only text without
blanks at its ends from which blanks around it lead back.
-/

namespace ArrayLogic.Text

/-- All characters are blank. -/
def Blank (cs : List Char) : Prop :=
  ∀ c ∈ cs, isBlank c = true

/-- There is no blank at either end. -/
structure Trimmed (cs : List Char) : Prop where
  head : ∀ c ∈ cs.head?, isBlank c = false
  last : ∀ c ∈ cs.getLast?, isBlank c = false

/-- The text is the given one with blanks in front of it and behind it. -/
def Padded (text cs : List Char) : Prop :=
  ∃ before after, Blank before ∧ Blank after ∧ text = before ++ (cs ++ after)

theorem Blank.append {first second : List Char} (hfirst : Blank first) (hsecond : Blank second) :
    Blank (first ++ second) :=
  List.forall_mem_append.mpr ⟨hfirst, hsecond⟩

theorem Blank.reverse {cs : List Char} (h : Blank cs) : Blank cs.reverse :=
  fun c hc => h c (List.mem_reverse.mp hc)

theorem trimmed_nil : Trimmed [] :=
  ⟨by simp, by simp⟩

/-- A text with something in the middle is trimmed if both its ends are. -/
theorem Trimmed.append {first middle last : List Char} (hfirst : Trimmed first)
    (hlast : Trimmed last) (hfirstNe : first ≠ []) (hlastNe : last ≠ []) :
    Trimmed (first ++ (middle ++ last)) := by
  constructor
  · rw [List.head?_append_of_ne_nil _ hfirstNe]
    exact hfirst.head
  · rw [← List.append_assoc, List.getLast?_append_of_ne_nil _ hlastNe]
    exact hlast.last

theorem padded_nil_iff {text : List Char} : Padded text [] ↔ Blank text := by
  constructor
  · rintro ⟨before, after, hbefore, hafter, rfl⟩
    exact hbefore.append hafter
  · intro h
    exact ⟨text, [], h, by simp [Blank], by simp⟩

theorem Padded.refl (cs : List Char) : Padded cs cs :=
  ⟨[], [], by simp [Blank], by simp [Blank], by simp⟩

theorem Padded.padLeft {text cs before : List Char} (h : Padded text cs) (hbefore : Blank before) :
    Padded (before ++ text) cs := by
  obtain ⟨front, back, hfront, hback, rfl⟩ := h
  exact ⟨before ++ front, back, hbefore.append hfront, hback, by simp⟩

theorem Padded.padRight {text cs after : List Char} (h : Padded text cs) (hafter : Blank after) :
    Padded (text ++ after) cs := by
  obtain ⟨front, back, hfront, hback, rfl⟩ := h
  exact ⟨front, back ++ after, hfront, hback.append hafter, by simp⟩

theorem Padded.subset {text cs : List Char} (h : Padded text cs) : cs ⊆ text := by
  obtain ⟨before, after, -, -, rfl⟩ := h
  intro c hc
  simp [hc]

/-! ## Where a condition ends -/

section

variable {p : Char → Bool} {front back : List Char}

theorem takeWhile_append_eq (hfront : ∀ c ∈ front, p c = true)
    (hback : ∀ c ∈ back.head?, p c = false) : (front ++ back).takeWhile p = front := by
  rw [List.takeWhile_append_of_pos hfront]
  cases back with
  | nil => simp
  | cons c rest => simp [hback c rfl]

theorem dropWhile_append_eq (hfront : ∀ c ∈ front, p c = true)
    (hback : ∀ c ∈ back.head?, p c = false) : (front ++ back).dropWhile p = back := by
  rw [List.dropWhile_append_of_pos hfront]
  cases back with
  | nil => rfl
  | cons c rest => simp [hback c rfl]

variable (p) in
/-- Every text has a longest part in front all of whose characters meet the condition. -/
theorem exists_append_eq (cs : List Char) : ∃ front back, (∀ c ∈ front, p c = true) ∧
    (∀ c ∈ back.head?, p c = false) ∧ cs = front ++ back := by
  refine ⟨cs.takeWhile p, cs.dropWhile p, ?_, ?_, ?_⟩
  · exact fun c hc => List.mem_takeWhile_imp hc
  · intro c hc
    have hhead := List.head?_dropWhile_not p cs
    rw [Option.mem_def.mp hc] at hhead
    exact hhead
  · exact List.takeWhile_append_dropWhile.symm

end

/-! ## What is left -/

theorem trim_of_padded {text cs : List Char} (h : Padded text cs) (hcs : Trimmed cs) :
    trim text = cs := by
  unfold trim
  cases cs with
  | nil =>
      have hblank := padded_nil_iff.mp h
      rw [List.dropWhile_eq_nil_iff.mpr hblank]
      rfl
  | cons c rest =>
      obtain ⟨before, after, hbefore, hafter, rfl⟩ := h
      have hhead : ∀ d ∈ (c :: rest ++ after).head?, isBlank d = false := hcs.head
      have hlast : ∀ d ∈ (c :: rest).reverse.head?, isBlank d = false := by
        rw [List.head?_reverse]
        exact hcs.last
      rw [dropWhile_append_eq hbefore hhead, List.reverse_append,
        dropWhile_append_eq hafter.reverse hlast, List.reverse_reverse]

theorem exists_padded (text : List Char) : ∃ cs, Trimmed cs ∧ Padded text cs := by
  obtain ⟨before, rest, hbefore, hhead, rfl⟩ := exists_append_eq isBlank text
  obtain ⟨after, cs, hafter, hlast, hrest⟩ := exists_append_eq isBlank rest.reverse
  obtain rfl : rest = cs.reverse ++ after.reverse := by
    rw [← List.reverse_append, ← hrest, List.reverse_reverse]
  refine ⟨cs.reverse, ⟨?_, ?_⟩, before, after.reverse, hbefore, Blank.reverse hafter, rfl⟩
  · intro c hc
    apply hhead
    rw [List.head?_append, Option.mem_def.mp hc]
    rfl
  · rw [List.getLast?_reverse]
    exact hlast

/-- What trimming leaves, described completely. -/
theorem trim_eq_iff {text cs : List Char} : trim text = cs ↔ Trimmed cs ∧ Padded text cs :=
  eq_iff_of_exists (exists_padded text) fun _ h => trim_of_padded h.2 h.1

end ArrayLogic.Text
