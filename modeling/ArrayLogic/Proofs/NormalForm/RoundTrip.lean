import ArrayLogic.Proofs.Formula.Expansion
import ArrayLogic.Proofs.NormalForm.Rendering

/-! # Round trip between covers and their text

The canonical text of a cover is read back as the terms of its cubes. The text of a sum has no place
for a constant, so this rests on absorption: an empty cube is never beside another one.
-/

namespace ArrayLogic

namespace Cover

theorem term_product (cube : Cube) : (product cube).term = cube.term := by
  unfold product
  split
  next l hliterals => simp [Product.term, Cube.term, hliterals]
  next => rfl

theorem terms_normalForm (c : Cover) : c.normalForm.terms = c.terms := by
  unfold normalForm terms
  split
  next hcubes => simp [NormalForm.terms, hcubes]
  next cube hcubes =>
    split
    next hempty =>
      have hliterals : cube.literals = [] := List.isEmpty_iff.mp hempty
      simp [NormalForm.terms, hcubes, Cube.term, hliterals]
    next => simp [NormalForm.terms, hcubes, term_product]
  next =>
    rw [NormalForm.terms, List.map_map]
    exact List.map_congr_left fun cube _ => term_product cube

theorem proper_product {cube : Cube} (h : cube ≠ .empty) : (product cube).Proper := by
  unfold product
  split
  · trivial
  next =>
    intro hliterals
    apply h
    rcases cube with ⟨literals⟩
    exact congrArg Cube.mk hliterals

/-- In a reduced cover an empty cube stands alone, so every form it is written in can be read. -/
theorem Reduced.proper_normalForm {c : Cover} (h : c.Reduced) : c.normalForm.Proper := by
  unfold normalForm
  split
  · trivial
  next cube hcubes =>
    split
    · trivial
    next hempty =>
      apply proper_product
      rintro rfl
      exact hempty rfl
  next hnil hsingle =>
    refine ⟨by simpa using hnil, ?_⟩
    intro p hp
    obtain ⟨cube, hcube, rfl⟩ := List.mem_map.mp hp
    apply proper_product
    rintro rfl
    rw [h.eq_one_of_empty_mem hcube] at hsingle
    exact hsingle .empty rfl

theorem Reduced.readTerms_text {c : Cover} (h : c.Reduced) :
    NormalForm.readTerms c.text = .ok c.terms := by
  rw [NormalForm.readTerms, text, NormalForm.read_text h.proper_normalForm]
  exact congrArg Except.ok c.terms_normalForm

/-- The terms of every cover that can be built are read back from its text, in the order of the
cubes and with the literals in the order of the cube. Expansions of formulas are such covers. -/
theorem readTerms_text_eq_terms :
    (∀ c : Cover, c.Reachable → NormalForm.readTerms c.text = .ok c.terms) ∧
      ∀ f : Formula, NormalForm.readTerms f.toCover.text = .ok f.toCover.terms :=
  ⟨fun _ h => h.reduced.readTerms_text, fun f => (f.reachable_cover false).reduced.readTerms_text⟩

/-- The last signal is read back in both polarities. -/
theorem readTerms_text_last_signal :
    let first : Literal := ⟨⟨0, by decide⟩, .direct⟩
    let last : Literal := ⟨⟨Nat.pow 2 63 - 1, by decide⟩, .direct⟩
    let c := ((ofLiteral last.flip).and (ofLiteral first)).or (ofLiteral last)
    c.Reachable ∧ NormalForm.readTerms c.text = .ok [⟨[first, last.flip]⟩, ⟨[last]⟩] := by
  intro first last c
  have hreachable : c.Reachable := .or (.and (.ofLiteral _) (.ofLiteral _)) (.ofLiteral _)
  refine ⟨hreachable, ?_⟩
  rw [readTerms_text_eq_terms.1 c hreachable]
  decide

end Cover

end ArrayLogic
