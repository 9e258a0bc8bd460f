import ArrayLogic.Proofs.Compilation.Success
import ArrayLogic.Proofs.Definitions.Agreement
import ArrayLogic.Proofs.Source

/-! # Exchanging equations of a source

Two neighbouring lines of a source can change places if they define different names and neither uses
the name of the other. The definitions of both sources agree then, and a compilation depends on
nothing else.
-/

namespace ArrayLogic

open Text (ofLines)

/-! ## Lines -/

namespace Source

/-- The lines hold equations for different names, and neither uses the name of the other. -/
inductive Independent (a b : List Char) : Prop
  | mk {name expression name' expression' : List Char}
      (ha : sides a = .ok (some (name, expression)))
      (hb : sides b = .ok (some (name', expression'))) (hne : name ≠ name')
      (huses : ¬ Formula.Uses (String.ofList expression) (String.ofList name'))
      (huses' : ¬ Formula.Uses (String.ofList expression') (String.ofList name)) :
      Independent a b

theorem Independent.symm {a b : List Char} (h : Independent a b) : Independent b a := by
  obtain ⟨ha, hb, hne, huses, huses'⟩ := h
  exact ⟨hb, ha, hne.symm, huses', huses⟩

/-- The equations of neighbouring lines are neighbours. -/
theorem filterMap_equation?_neighbours {a b : List Char} {e e' : Nat → Equation}
    (ha : ∀ number, equation? (a, number) = some (e number))
    (hb : ∀ number, equation? (b, number) = some (e' number)) (front back : List (List Char)) :
    ((front ++ a :: b :: back).zipIdx 1).filterMap equation? =
      (front.zipIdx 1).filterMap equation? ++ e (1 + front.length) :: e' (1 + front.length + 1) ::
        (back.zipIdx (1 + front.length + 1 + 1)).filterMap equation? := by
  rw [List.zipIdx_append, List.filterMap_append, List.zipIdx_cons, List.zipIdx_cons,
    List.filterMap_cons_some (ha _), List.filterMap_cons_some (hb _)]

end Source

namespace Compilation

/-- What holds of every line still does when two of them have changed places. -/
theorem forall_mem_exchanged {p : List Char → Prop} {front back : List (List Char)}
    {a b : List Char} (h : ∀ line ∈ front ++ a :: b :: back, p line) :
    ∀ line ∈ front ++ b :: a :: back, p line := by
  have hperm : (front ++ b :: a :: back).Perm (front ++ a :: b :: back) :=
    (List.Perm.swap a b back).append_left front
  intro line hline
  exact h line (hperm.mem_iff.mp hline)

section

variable {g : Geometry} {front back : List (List Char)} {a b : List Char}

theorem definitions_exchange (hlines : ∀ line ∈ front ++ a :: b :: back, '\n' ∉ line)
    (h : Source.Independent a b) {d : Definitions}
    (hd : definitions g (String.ofList (ofLines (front ++ a :: b :: back))) = .ok d) :
    ∃ d', definitions g (String.ofList (ofLines (front ++ b :: a :: back))) = .ok d' ∧
      d.Agree (fun _ => True) d' := by
  obtain ⟨equations, hread, hdefine⟩ := definitions_eq_ok_iff.mp hd
  obtain ⟨hvalid, rfl⟩ := (Source.read_ofLines_eq_ok_iff hlines).mp hread
  cases h with
  | @mk name expression name' expression' ha hb hne huses huses' =>
      have hfirst := Source.equation?_of_sides ha
      have hsecond := Source.equation?_of_sides hb
      rw [Source.filterMap_equation?_neighbours hfirst hsecond] at hdefine
      have hread' := (Source.read_ofLines_eq_ok_iff (forall_mem_exchanged hlines)).mpr
        ⟨forall_mem_exchanged hvalid,
          Source.filterMap_equation?_neighbours hsecond hfirst front back⟩
      -- Each of the two equations moves by one line, which shows in reports of failures only.
      have hmoved (n x : String) (number number' : Nat) :
          Equation.SameText ⟨n, x, number⟩ ⟨n, x, number'⟩ := ⟨rfl, rfl⟩
      have hnames : String.ofList name ≠ String.ofList name' :=
        fun hsame => hne (String.ofList_injective hsame)
      obtain ⟨d', hdefine', hagree⟩ := Definitions.defineAll_exchange
        (hmoved _ _ _ (1 + front.length + 1)) (hmoved _ _ _ (1 + front.length)) hnames huses huses'
        hdefine
      exact ⟨d', definitions_eq_ok_iff.mpr ⟨_, hread', hdefine'⟩, hagree⟩

theorem compile_of_compile_exchanged (hlines : ∀ line ∈ front ++ a :: b :: back, '\n' ∉ line)
    (h : Source.Independent a b) {c : Compilation g}
    (hc : compile g (String.ofList (ofLines (front ++ a :: b :: back))) = .ok c) :
    compile g (String.ofList (ofLines (front ++ b :: a :: back))) = .ok c := by
  obtain ⟨d, hd⟩ := definitions_of_compile hc
  obtain ⟨d', hd', hagree⟩ := definitions_exchange hlines h hd
  have houtputs := hagree.outputs_eq (fun _ => trivial) g.outputs
  rw [← compile_eq_of_outputs_eq hd hd' houtputs]
  exact hc

/-- Independent lines can change places: if one of the sources compiles, so does the other, and both
have the same outputs, normal forms, terms and fuses. -/
theorem compile_exchange (hlines : ∀ line ∈ front ++ a :: b :: back, '\n' ∉ line)
    (h : Source.Independent a b) (c : Compilation g) :
    compile g (String.ofList (ofLines (front ++ a :: b :: back))) = .ok c ↔
      compile g (String.ofList (ofLines (front ++ b :: a :: back))) = .ok c :=
  ⟨compile_of_compile_exchanged hlines h,
    compile_of_compile_exchanged (forall_mem_exchanged hlines) h.symm⟩

end

/-- A temporary is redefined on one line and the next line defines an output from another temporary.
A line before them ends with a carriage return, and one of them with a comment. Of the fuses, the
first eight connect the four AND rows to the two terms. -/
theorem compile_exchange_redefinition :
    let g : Geometry := ⟨2, 2, 2⟩
    let front := ["T1 = 1".toList, "T0 = I0\r".toList]
    let a := "T1 = T0 & I1 # O0".toList
    let b := " O0 = ~T0".toList
    let back := ["O1 = T1".toList]
    (∀ line ∈ front ++ a :: b :: back, '\n' ∉ line) ∧ Source.Independent a b ∧
      ∃ c : Compilation g, c.outputs.map (·.normalForm) = ["~I0", "And(I0, I1)"] ∧
        c.fuseMap.bitChars = "011001001001".toList ∧
        compile g (String.ofList (ofLines (front ++ a :: b :: back))) = .ok c ∧
        compile g (String.ofList (ofLines (front ++ b :: a :: back))) = .ok c := by
  intro g front a b back
  have hall : (front ++ a :: b :: back).all (fun line => !line.contains '\n') = true := by
    decide +kernel
  have hlines : ∀ line ∈ front ++ a :: b :: back, '\n' ∉ line := by
    intro line hline
    simpa using List.all_eq_true.mp hall line hline
  have ha : Source.sides a = .ok (some ("T1".toList, "T0 & I1".toList)) := by decide +kernel
  have hb : Source.sides b = .ok (some ("O0".toList, "~T0".toList)) := by decide +kernel
  have hindependent : Source.Independent a b :=
    ⟨ha, hb, by decide, by decide +kernel, by decide +kernel⟩
  have hcompiled : (compile g (String.ofList (ofLines (front ++ a :: b :: back)))).toOption.map
      (fun c => (c.outputs.map (·.normalForm), c.fuseMap.bitChars)) =
        some (["~I0", "And(I0, I1)"], "011001001001".toList) := by
    decide +kernel
  cases hresult : compile g (String.ofList (ofLines (front ++ a :: b :: back))) with
  | error cause => simp [hresult, Except.toOption] at hcompiled
  | ok c =>
      rw [hresult] at hcompiled
      obtain ⟨hforms, hfuses⟩ := Prod.mk.inj (Option.some.inj hcompiled)
      have hexchanged := (compile_exchange hlines hindependent c).mp hresult
      exact ⟨hlines, hindependent, c, hforms, hfuses, rfl, hexchanged⟩

end Compilation

end ArrayLogic
