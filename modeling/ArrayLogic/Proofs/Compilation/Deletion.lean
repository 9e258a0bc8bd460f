import ArrayLogic.Proofs.Compilation.Success
import ArrayLogic.Proofs.Definitions.Agreement
import ArrayLogic.Proofs.Source

/-! # Deleting dead definitions from a source

A line of a source can be deleted if the name that it defines is not read before it is defined
again. The definitions of both sources then agree on all other names, and on this one as soon as it
is defined again. A temporary need not be: outputs are selected by name, and no output has the name
of a temporary.
-/

namespace ArrayLogic

open Text (ofLines)

/-! ## Lines -/

namespace Source

/-- The line holds an equation for the name. -/
def Defines (line name : List Char) : Prop :=
  ∃ expression, sides line = .ok (some (name, expression))

/-- The line holds an equation with the name as a word of its right-hand side. -/
def UsesName (line name : List Char) : Prop :=
  ∃ defined expression, sides line = .ok (some (defined, expression)) ∧
    Formula.Uses (String.ofList expression) (String.ofList name)

/-- No line uses the name up to and including the next one that defines it. -/
def Unread (name : List Char) : List (List Char) → Prop
  | [] => True
  | line :: later => ¬ UsesName line name ∧ (Defines line name ∨ Unread name later)

variable {line name : List Char}

theorem usesName_iff {defined expression : List Char}
    (h : sides line = .ok (some (defined, expression))) :
    UsesName line name ↔ Formula.Uses (String.ofList expression) (String.ofList name) := by
  constructor
  · rintro ⟨defined', expression', hsides, huses⟩
    rw [h] at hsides
    cases hsides
    exact huses
  · exact fun huses => ⟨defined, expression, h, huses⟩

/-- A name that the lines do not read is not read by their equations. -/
theorem Unread.equations {ls : List (List Char)} (h : Unread name ls) (number : Nat) :
    Definitions.Unread (String.ofList name) ((ls.zipIdx number).filterMap equation?) := by
  induction ls generalizing number with
  | nil => trivial
  | cons line later ih =>
      rw [List.zipIdx_cons]
      by_cases hequation : ∃ defined expression, sides line = .ok (some (defined, expression))
      · obtain ⟨defined, expression, hsides⟩ := hequation
        rw [List.filterMap_cons_some (equation?_of_sides hsides number)]
        refine ⟨fun huses => h.1 ((usesName_iff hsides).mpr huses), ?_⟩
        apply h.2.imp
        · rintro ⟨expression', hsides'⟩
          rw [hsides] at hsides'
          cases hsides'
          rfl
        · exact fun hlater => ih hlater (number + 1)
      · rw [List.filterMap_cons_none (equation?_eq_none hequation number)]
        -- A line without an equation defines nothing, so the condition is on the later lines.
        apply ih
        apply h.2.resolve_left
        rintro ⟨expression, hsides⟩
        exact hequation ⟨name, expression, hsides⟩

theorem exists_equation_of_defines {ls : List (List Char)} (hline : line ∈ ls)
    (h : Defines line name) (number : Nat) :
    ∃ e ∈ (ls.zipIdx number).filterMap equation?, e.name = String.ofList name := by
  obtain ⟨expression, hsides⟩ := h
  rw [← List.zipIdx_map_fst number ls] at hline
  obtain ⟨numbered, hnumbered, rfl⟩ := List.mem_map.mp hline
  exact ⟨_, List.mem_filterMap.mpr ⟨numbered, hnumbered, equation?_of_sides hsides _⟩, rfl⟩

/-- Lines hold the same equations wherever they stand. -/
theorem forall₂_sameText_renumbered (ls : List (List Char)) (number number' : Nat) :
    List.Forall₂ Equation.SameText ((ls.zipIdx number).filterMap equation?)
      ((ls.zipIdx number').filterMap equation?) := by
  induction ls generalizing number number' with
  | nil => exact .nil
  | cons line later ih =>
      rw [List.zipIdx_cons, List.zipIdx_cons]
      by_cases hequation : ∃ defined expression, sides line = .ok (some (defined, expression))
      · obtain ⟨defined, expression, hsides⟩ := hequation
        rw [List.filterMap_cons_some (equation?_of_sides hsides number),
          List.filterMap_cons_some (equation?_of_sides hsides number')]
        exact .cons ⟨rfl, rfl⟩ (ih _ _)
      · rw [List.filterMap_cons_none (equation?_eq_none hequation number),
          List.filterMap_cons_none (equation?_eq_none hequation number')]
        exact ih _ _

end Source

namespace Compilation

section

variable {g : Geometry} {front back : List (List Char)} {line name expression : List Char}

theorem definitions_delete (hlines : ∀ l ∈ front ++ line :: back, '\n' ∉ l)
    (hline : Source.sides line = .ok (some (name, expression))) (hunread : Source.Unread name back)
    {d : Definitions}
    (hd : definitions g (String.ofList (ofLines (front ++ line :: back))) = .ok d) :
    ∃ d', definitions g (String.ofList (ofLines (front ++ back))) = .ok d' ∧
      d.Agree (fun other => other ≠ String.ofList name ∨ ∃ l ∈ back, Source.Defines l name) d' := by
  obtain ⟨equations, hread, hdefine⟩ := definitions_eq_ok_iff.mp hd
  obtain ⟨hvalid, rfl⟩ := (Source.read_ofLines_eq_ok_iff hlines).mp hread
  have hkept : ∀ l ∈ front ++ back, l ∈ front ++ line :: back := by
    intro l hl
    apply List.mem_append.mpr
    exact (List.mem_append.mp hl).imp_right (List.mem_cons_of_mem line)
  have hread' := (Source.read_ofLines_eq_ok_iff fun l hl => hlines l (hkept l hl)).mpr
    ⟨fun l hl => hvalid l (hkept l hl), rfl⟩
  rw [List.zipIdx_append, List.filterMap_append, List.zipIdx_cons,
    List.filterMap_cons_some (Source.equation?_of_sides hline _)] at hdefine
  rw [List.zipIdx_append, List.filterMap_append] at hread'
  -- The lines behind the deleted one move up, which shows in reports of failures only.
  obtain ⟨d', hdefine', hagree⟩ := Definitions.defineAll_delete
    (Source.forall₂_sameText_renumbered back _ (1 + front.length)) (hunread.equations _) hdefine
  refine ⟨d', definitions_eq_ok_iff.mpr ⟨_, hread', hdefine'⟩, hagree.mono ?_⟩
  intro other hother
  apply hother.imp_right
  rintro ⟨l, hl, hdefines⟩
  exact Source.exists_equation_of_defines hl hdefines _

/-- A line can be deleted from a source that compiles if its name is not read before it is defined
again, and if it is defined again or names a temporary. The outputs, normal forms, terms and fuses
stay the same. -/
theorem compile_delete (hlines : ∀ l ∈ front ++ line :: back, '\n' ∉ l)
    (hline : Source.sides line = .ok (some (name, expression))) (hunread : Source.Unread name back)
    (hhidden : (∃ l ∈ back, Source.Defines l name) ∨ ∃ digits, name = 'T' :: digits)
    {c : Compilation g}
    (hc : compile g (String.ofList (ofLines (front ++ line :: back))) = .ok c) :
    compile g (String.ofList (ofLines (front ++ back))) = .ok c := by
  obtain ⟨d, hd⟩ := definitions_of_compile hc
  obtain ⟨d', hd', hagree⟩ := definitions_delete hlines hline hunread hd
  have houtputs : d.outputs g.outputs = d'.outputs g.outputs := by
    apply hagree.outputs_eq
    intro k
    rcases hhidden with hdefined | ⟨digits, rfl⟩
    · exact .inr hdefined
    · exact .inl (Name.output_ne_temporary k digits)
  rw [← compile_eq_of_outputs_eq hd hd' houtputs]
  exact hc

end

/-- An output is defined from its own earlier meaning. A later line names it in a comment, then it
is defined again, and only the line after that uses it. Of the fuses, the first eight connect the
four AND rows to the two terms. -/
theorem compile_delete_redefined_output :
    let g : Geometry := ⟨2, 2, 2⟩
    let front := ["O0 = 1".toList]
    let line := "O0 = O0 ^ I0".toList
    let back := ["T1 = I1 # not O0\r".toList, "O0 = T1".toList, "O1 = ~O0".toList]
    (∀ l ∈ front ++ line :: back, '\n' ∉ l) ∧ Source.Unread "O0".toList back ∧
      (∃ l ∈ back, Source.Defines l "O0".toList) ∧
      ∃ c : Compilation g, c.outputs.map (·.normalForm) = ["I1", "~I1"] ∧
        c.fuseMap.bitChars = "000010011001".toList ∧
        compile g (String.ofList (ofLines (front ++ line :: back))) = .ok c ∧
        compile g (String.ofList (ofLines (front ++ back))) = .ok c := by
  intro g front line back
  have hall : (front ++ line :: back).all (fun l => !l.contains '\n') = true := by decide +kernel
  have hlines : ∀ l ∈ front ++ line :: back, '\n' ∉ l := by
    intro l hl
    simpa using List.all_eq_true.mp hall l hl
  have hline : Source.sides line = .ok (some ("O0".toList, "O0 ^ I0".toList)) := by
    decide +kernel
  have hfirst : Source.sides "T1 = I1 # not O0\r".toList =
      .ok (some ("T1".toList, "I1".toList)) := by decide +kernel
  have hsecond : Source.sides "O0 = T1".toList = .ok (some ("O0".toList, "T1".toList)) := by
    decide +kernel
  have hunread : Source.Unread "O0".toList back := by
    refine ⟨?_, .inr ⟨?_, .inl ⟨_, hsecond⟩⟩⟩
    · rw [Source.usesName_iff hfirst]
      decide +kernel
    · rw [Source.usesName_iff hsecond]
      decide +kernel
  have hdefined : ∃ l ∈ back, Source.Defines l "O0".toList :=
    ⟨_, .tail _ (.head _), _, hsecond⟩
  have hcompiled : (compile g (String.ofList (ofLines (front ++ line :: back)))).toOption.map
      (fun c => (c.outputs.map (·.normalForm), c.fuseMap.bitChars)) =
        some (["I1", "~I1"], "000010011001".toList) := by
    decide +kernel
  cases hresult : compile g (String.ofList (ofLines (front ++ line :: back))) with
  | error cause => simp [hresult, Except.toOption] at hcompiled
  | ok c =>
      rw [hresult] at hcompiled
      obtain ⟨hforms, hfuses⟩ := Prod.mk.inj (Option.some.inj hcompiled)
      have hdeleted := compile_delete hlines hline hunread (.inl hdefined) hresult
      exact ⟨hlines, hunread, hdefined, c, hforms, hfuses, rfl, hdeleted⟩

end Compilation

end ArrayLogic
