import ArrayLogic.Proofs.Text.Lines
import ArrayLogic.Source

/-! # Sources made of lines

A source has equations if none of its lines is invalid. Lines are judged one by one, so the
equations of a source are those of its lines, with the number of the line.
-/

namespace ArrayLogic.Source

open Text (lines ofLines withoutReturn)

/-! ## Line ends -/

theorem content_concat_return (line : List Char) : content (line ++ ['\r']) = content line := by
  unfold content
  rw [List.takeWhile_append]
  -- Without a comment the carriage return is trimmed, otherwise it is part of the comment.
  split
  next hlength =>
    have hwhole : line.takeWhile (· != '#') = line :=
      (List.takeWhile_prefix _).eq_of_length hlength
    rw [hwhole]
    exact Text.trim_concat (by decide) line
  next => rfl

/-- The carriage return at the end of a line is no part of its equation. -/
theorem sides_concat_return (line : List Char) : sides (line ++ ['\r']) = sides line := by
  unfold sides
  rw [content_concat_return]

theorem sides_withoutReturn (line : List Char) : sides (withoutReturn line) = sides line :=
  Text.apply_withoutReturn sides_concat_return line

/-! ## Equations -/

/-- The line is blank or holds an equation. -/
def Valid (line : List Char) : Prop :=
  ∃ found, sides line = .ok found

theorem invalid?_eq_none_iff {line : List Char} {number : Nat} :
    invalid? (line, number) = none ↔ Valid line := by
  cases hsides : sides line with
  | ok found => simp [invalid?, Valid, hsides]
  | error defect => simp [invalid?, Valid, hsides]

/-- The equation that a line holds, wherever it stands. -/
theorem equation?_of_sides {line name expression : List Char}
    (h : sides line = .ok (some (name, expression))) (number : Nat) :
    equation? (line, number) =
      some ⟨String.ofList name, String.ofList expression, number⟩ := by
  simp only [equation?, h]

/-- Whether a line holds an equation does not depend on its number. -/
theorem equation?_eq_none {line : List Char}
    (h : ¬ ∃ name expression, sides line = .ok (some (name, expression))) (number : Nat) :
    equation? (line, number) = none := by
  simp only [equation?]
  split
  next name expression hsides => exact absurd ⟨name, expression, hsides⟩ h
  next => rfl

theorem read_eq_ok_iff {text : String} {es : List Equation} : read text = .ok es ↔
    (∀ line ∈ lines text.toList, Valid line) ∧ (numberedLines text).filterMap equation? = es := by
  have hvalid : (numberedLines text).filterMap invalid? = [] ↔
      ∀ line ∈ lines text.toList, Valid line := by
    rw [List.filterMap_eq_nil_iff, ← List.zipIdx_map_fst 1 (lines text.toList), List.forall_mem_map]
    exact forall₂_congr fun numbered _ => invalid?_eq_none_iff
  unfold read
  split
  next hnil => rw [Except.ok.injEq, and_iff_right (hvalid.mp hnil)]
  next hinvalid =>
    constructor
    · intro h
      simp at h
    · intro hparts
      exact absurd (hvalid.mpr hparts.1) hinvalid

/-- The equations of a source that is made of lines. -/
theorem read_ofLines_eq_ok_iff {ls : List (List Char)} (h : ∀ line ∈ ls, '\n' ∉ line)
    {es : List Equation} : read (String.ofList (ofLines ls)) = .ok es ↔
      (∀ line ∈ ls, Valid line) ∧ (ls.zipIdx 1).filterMap equation? = es := by
  have hvalid (line : List Char) : Valid (withoutReturn line) ↔ Valid line := by
    unfold Valid
    rw [sides_withoutReturn]
  have hequation : equation? ∘ Prod.map withoutReturn id = equation? := by
    funext numbered
    rcases numbered with ⟨line, number⟩
    simp only [Function.comp_apply, Prod.map_apply, equation?, sides_withoutReturn, id]
  rw [read_eq_ok_iff, numberedLines, String.toList_ofList, Text.lines_ofLines h,
    List.forall_mem_map, List.zipIdx_map, List.filterMap_map, hequation]
  simp only [hvalid]

end ArrayLogic.Source
