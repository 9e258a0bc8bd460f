import ArrayLogic.Proofs.Source
import Mathlib.Data.List.Basic

/-! # Sources put together

A text behind the end of a line is read as if it stood alone, but for the numbers of its lines. What
is reported about a line depends on this line only, so whatever happens to the other lines, the
report stays the same.
-/

namespace ArrayLogic

/-- The equation some lines further down. -/
def Equation.shift (count : Nat) (e : Equation) : Equation :=
  { e with line := e.line + count }

namespace Source

open Text (EndsLine lines)

/-- The invalid line some lines further down. -/
def InvalidLine.shift (count : Nat) (r : InvalidLine) : InvalidLine :=
  { r with line := r.line + count }

/-- The invalid lines that are reported. -/
def reported : Except (List InvalidLine) (List Equation) → List InvalidLine
  | .ok _ => []
  | .error invalid => invalid

/-- What is read from a text of two parts, if the first one has the given number of lines. -/
def joined (count : Nat) : Except (List InvalidLine) (List Equation) →
    Except (List InvalidLine) (List Equation) → Except (List InvalidLine) (List Equation)
  | .ok es, .ok later => .ok (es ++ later.map (.shift count))
  | first, second => .error (reported first ++ (reported second).map (.shift count))

/-! ## Numbers of lines -/

theorem equation?_add (line : List Char) (number count : Nat) :
    equation? (line, number + count) = (equation? (line, number)).map (.shift count) := by
  simp only [equation?]
  split <;> rfl

theorem invalid?_add (line : List Char) (number count : Nat) :
    invalid? (line, number + count) = (invalid? (line, number)).map (.shift count) := by
  simp only [invalid?]
  split <;> rfl

/-- What is found on lines behind others is found further down. -/
theorem filterMap_numbered_append {β : Type} {found : List Char × Nat → Option β}
    {shift : Nat → β → β} (hshift : ∀ line number count,
      found (line, number + count) = (found (line, number)).map (shift count))
    (first second : List (List Char)) : ((first ++ second).zipIdx 1).filterMap found =
      (first.zipIdx 1).filterMap found ++
        ((second.zipIdx 1).filterMap found).map (shift first.length) := by
  have hlater : found ∘ Prod.map id (· + first.length) =
      fun numbered => (found numbered).map (shift first.length) := by
    funext numbered
    exact hshift numbered.1 numbered.2 first.length
  rw [List.zipIdx_append, List.filterMap_append, Nat.add_comm 1,
    ← List.map_snd_add_zipIdx_eq_zipIdx, List.filterMap_map, hlater, List.map_filterMap]

/-- The equations of the second part follow those of the first. -/
theorem equations_append {a : String} (ha : EndsLine a.toList) (b : String) :
    (numberedLines (a ++ b)).filterMap equation? = (numberedLines a).filterMap equation? ++
      ((numberedLines b).filterMap equation?).map (.shift (a.toList.count '\n')) := by
  rw [numberedLines, String.toList_append, ha.lines_append, filterMap_numbered_append equation?_add,
    ha.length_lines]
  rfl

theorem invalid_append {a : String} (ha : EndsLine a.toList) (b : String) :
    (numberedLines (a ++ b)).filterMap invalid? = (numberedLines a).filterMap invalid? ++
      ((numberedLines b).filterMap invalid?).map (.shift (a.toList.count '\n')) := by
  rw [numberedLines, String.toList_append, ha.lines_append, filterMap_numbered_append invalid?_add,
    ha.length_lines]
  rfl

/-! ## Outcomes -/

theorem reported_read (text : String) :
    reported (read text) = (numberedLines text).filterMap invalid? := by
  unfold read
  split
  next hnil => exact hnil.symm
  next => rfl

/-- A part that stands behind the end of a line is read on its own. -/
theorem read_append {a : String} (ha : EndsLine a.toList) (b : String) :
    read (a ++ b) = joined (a.toList.count '\n') (read a) (read b) := by
  unfold read
  rw [invalid_append ha, equations_append ha]
  cases (numberedLines a).filterMap invalid? with
  | nil =>
      cases (numberedLines b).filterMap invalid? with
      | nil => rfl
      | cons first others => rfl
  | cons first others =>
      cases (numberedLines b).filterMap invalid? with
      | nil => rfl
      | cons second others => rfl

theorem line_of_invalid? {line : List Char} {number : Nat} {r : InvalidLine}
    (h : invalid? (line, number) = some r) : r.line = number := by
  simp only [invalid?] at h
  split at h
  next => cases h
  next => rw [← Option.some.inj h]

/-- Reports are about lines that the text has. -/
theorem line_of_reported {text : String} {r : InvalidLine} (h : r ∈ reported (read text)) :
    1 ≤ r.line ∧ r.line ≤ (lines text.toList).length := by
  rw [reported_read, List.mem_filterMap] at h
  obtain ⟨⟨line, number⟩, hmem, hinvalid⟩ := h
  obtain ⟨hfirst, hline⟩ := List.mk_mem_zipIdx_iff_le_and_getElem?_sub.mp hmem
  obtain ⟨hlast, -⟩ := List.getElem?_eq_some_iff.mp hline
  rw [line_of_invalid? hinvalid]
  omega

theorem reported_joined (count : Nat) (first second : Except (List InvalidLine) (List Equation)) :
    reported (joined count first second) =
      reported first ++ (reported second).map (.shift count) := by
  cases first <;> cases second <;> rfl

theorem InvalidLine.shift_injective (count : Nat) : Function.Injective (shift count) := by
  intro r r' h
  cases r
  cases r'
  simpa [shift] using h

section

variable {a b : String} {r : InvalidLine}

theorem mem_reported_append_iff (ha : EndsLine a.toList) : r ∈ reported (read (a ++ b)) ↔
    r ∈ reported (read a) ∨ ∃ r' ∈ reported (read b), r'.shift (a.toList.count '\n') = r := by
  rw [read_append ha, reported_joined, List.mem_append, List.mem_map]

/-- What is reported about the first part does not depend on the second. -/
theorem mem_reported_left_iff (ha : EndsLine a.toList) (hr : r.line ≤ a.toList.count '\n') :
    r ∈ reported (read (a ++ b)) ↔ r ∈ reported (read a) := by
  rw [mem_reported_append_iff ha, or_iff_left]
  rintro ⟨r', hr', rfl⟩
  have hfirst := (line_of_reported hr').1
  change r'.line + a.toList.count '\n' ≤ a.toList.count '\n' at hr
  omega

/-- What is reported about the second part does not depend on the first. -/
theorem mem_reported_right_iff (ha : EndsLine a.toList) (hr : 1 ≤ r.line) :
    r.shift (a.toList.count '\n') ∈ reported (read (a ++ b)) ↔ r ∈ reported (read b) := by
  rw [mem_reported_append_iff ha, or_iff_right]
  · constructor
    · rintro ⟨r', hr', hsame⟩
      exact InvalidLine.shift_injective _ hsame ▸ hr'
    · intro h
      exact ⟨r, h, rfl⟩
  · intro h
    have hlast := (line_of_reported h).2
    rw [ha.length_lines] at hlast
    change r.line + a.toList.count '\n' ≤ a.toList.count '\n' at hlast
    omega

end

/-- A text and another one behind the end of a line are read like each of them alone, with the lines
of the second counted on. If both are valid, there are the equations of both; otherwise there are
none, and the invalid lines of both are reported. So no report is lost, added or changed, whatever
the other part is. -/
theorem read_append_judges_lines {a : String} (ha : EndsLine a.toList) (b : String) :
    read (a ++ b) = joined (a.toList.count '\n') (read a) (read b) ∧
      (lines a.toList).length = a.toList.count '\n' ∧
      (∀ r : InvalidLine, r.line ≤ a.toList.count '\n' →
        (r ∈ reported (read (a ++ b)) ↔ r ∈ reported (read a))) ∧
      ∀ r : InvalidLine, 1 ≤ r.line →
        (r.shift (a.toList.count '\n') ∈ reported (read (a ++ b)) ↔ r ∈ reported (read b)) :=
  ⟨read_append ha b, ha.length_lines, fun _ => mem_reported_left_iff ha,
    fun _ => mem_reported_right_iff ha⟩

/-- Two parts with an invalid line of each kind, and two valid parts, with both kinds of line ends
and with blank lines. The equations of a valid part are lost before an invalid one. -/
theorem read_append_judges_lines_both_outcomes :
    let a := "O1 = rm\r\n\nO0 = I0 # =\n"
    let b := "= I1\nO2 I1"
    let c := "T0 = I0 & ~I1\r\n\nO0 = T0 # =\n"
    let d := "\nT0 = 1\r\nO1 = T0"
    (EndsLine a.toList ∧ read a = .error [⟨1, "O1 = rm", .unsupportedCharacters⟩] ∧
      read b = .error [⟨1, "= I1", .emptySide⟩, ⟨2, "O2 I1", .missingEquals⟩] ∧
      read (a ++ b) = .error [⟨1, "O1 = rm", .unsupportedCharacters⟩, ⟨4, "= I1", .emptySide⟩,
        ⟨5, "O2 I1", .missingEquals⟩]) ∧
    (EndsLine c.toList ∧ read c = .ok [⟨"T0", "I0 & ~I1", 1⟩, ⟨"O0", "T0", 3⟩] ∧
      read d = .ok [⟨"T0", "1", 2⟩, ⟨"O1", "T0", 3⟩] ∧
      read (c ++ d) = .ok [⟨"T0", "I0 & ~I1", 1⟩, ⟨"O0", "T0", 3⟩, ⟨"T0", "1", 5⟩,
        ⟨"O1", "T0", 6⟩]) ∧
    read (c ++ b) = .error [⟨4, "= I1", .emptySide⟩, ⟨5, "O2 I1", .missingEquals⟩] := by
  intro a b c d
  have ha : EndsLine a.toList := .inr (by decide)
  have hc : EndsLine c.toList := .inr (by decide)
  have hreadA : read a = .error [⟨1, "O1 = rm", .unsupportedCharacters⟩] := by decide +kernel
  have hreadB : read b = .error [⟨1, "= I1", .emptySide⟩, ⟨2, "O2 I1", .missingEquals⟩] := by
    decide +kernel
  have hreadC : read c = .ok [⟨"T0", "I0 & ~I1", 1⟩, ⟨"O0", "T0", 3⟩] := by decide +kernel
  have hreadD : read d = .ok [⟨"T0", "1", 2⟩, ⟨"O1", "T0", 3⟩] := by decide +kernel
  refine ⟨⟨ha, hreadA, hreadB, ?_⟩, ⟨hc, hreadC, hreadD, ?_⟩, ?_⟩
  · rw [(read_append_judges_lines ha b).1, hreadA, hreadB]
    decide +kernel
  · rw [(read_append_judges_lines hc d).1, hreadC, hreadD]
    decide +kernel
  · rw [(read_append_judges_lines hc b).1, hreadC, hreadB]
    decide +kernel

end Source

end ArrayLogic
