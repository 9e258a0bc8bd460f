import ArrayLogic.Proofs.Definitions.Outputs
import ArrayLogic.Proofs.Definitions.Prefix
import ArrayLogic.Proofs.Formula.Dependence

/-! # Agreeing definitions

Definitions are used through the formulas of their names, and the order in which names were bound
does not show. Where two definitions agree on the names that equations use, the equations define the
same formulas in both, and where they agree on all outputs, they select the same outputs.
-/

namespace ArrayLogic

/-- The equations have the same name and expression, perhaps on different lines. -/
structure Equation.SameText (e e' : Equation) : Prop where
  name : e.name = e'.name
  expression : e.expression = e'.expression

namespace Definitions

/-- The inputs are the same, and so are the formulas of the visible names. -/
structure Agree (visible : String → Prop) (d d' : Definitions) : Prop where
  inputs : d.inputs = d'.inputs
  get? : ∀ name, visible name → d.get? name = d'.get? name

variable {visible : String → Prop} {d d' : Definitions} {e e' : Equation}

theorem Agree.mono {fewer : String → Prop} (h : Agree visible d d')
    (hfewer : ∀ name, fewer name → visible name) : Agree fewer d d' :=
  ⟨h.inputs, fun name hname => h.get? name (hfewer name hname)⟩

theorem Agree.symm (h : Agree visible d d') : Agree visible d' d :=
  ⟨h.inputs.symm, fun name hname => (h.get? name hname).symm⟩

theorem Agree.insert (h : Agree visible d d') (name : String) (f : Formula) :
    Agree (fun other => visible other ∨ other = name) (d.insert name f) (d'.insert name f) := by
  refine ⟨h.inputs, ?_⟩
  intro other hother
  rw [get?_insert, get?_insert]
  split
  next => rfl
  next hne => exact h.get? other (hother.resolve_right hne)

/-- A binding only shows at its own name. -/
theorem agree_insert (d : Definitions) (name : String) (f : Formula) :
    Agree (· ≠ name) d (d.insert name f) := by
  refine ⟨rfl, ?_⟩
  intro other hother
  rw [get?_insert, if_neg hother]

/-- Different names can be bound in either order. -/
theorem agree_insert_comm (d : Definitions) {name other : String} (hne : name ≠ other)
    (f g : Formula) : Agree (fun _ => True) ((d.insert name f).insert other g)
      ((d.insert other g).insert name f) := by
  refine ⟨rfl, ?_⟩
  intro word _
  simp only [get?_insert]
  by_cases hword : word = name
  · simp [hword, hne]
  · simp [hword]

/-! ## Equations -/

theorem Agree.formulaOf_eq (h : Agree visible d d')
    (huses : ∀ word, Formula.Uses e.expression word → visible word) :
    d.formulaOf e = d'.formulaOf e := by
  have hread : Formula.read d.scope e.expression = Formula.read d'.scope e.expression :=
    Formula.read_congr h.inputs fun word hword => h.get? word (huses word hword)
  unfold formulaOf
  rw [hread]

/-- A binding does not change the formula of an equation that does not use its name. -/
theorem formulaOf_insert (d : Definitions) {name : String} (f : Formula)
    (huses : ¬ Formula.Uses e.expression name) : (d.insert name f).formulaOf e = d.formulaOf e := by
  apply Eq.symm
  apply (d.agree_insert name f).formulaOf_eq
  rintro word hword rfl
  exact huses hword

theorem formulaOf_eq_of_sameText (h : e.SameText e') (d : Definitions) :
    d.formulaOf e = d.formulaOf e' := by
  unfold formulaOf
  rw [h.name, h.expression]

theorem define_of_sameText {next : Definitions} (h : e.SameText e')
    (hnext : d.define e = .ok next) : d.define e' = .ok next := by
  rw [define_eq_ok_iff] at hnext ⊢
  rwa [← formulaOf_eq_of_sameText h, ← h.name]

theorem Agree.define {next : Definitions} (h : Agree visible d d') (hsame : e.SameText e')
    (huses : ∀ word, Formula.Uses e.expression word → visible word)
    (hnext : d.define e = .ok next) : ∃ next', d'.define e' = .ok next' ∧
      Agree (fun name => visible name ∨ name = e.name) next next' := by
  obtain ⟨f, hf, rfl⟩ := define_eq_ok_iff.mp hnext
  rw [h.formulaOf_eq huses, formulaOf_eq_of_sameText hsame] at hf
  refine ⟨_, define_eq_ok_iff.mpr ⟨f, hf, rfl⟩, ?_⟩
  rw [← hsame.name]
  exact h.insert e.name f

/-- Equations lead agreeing definitions to agreeing ones. -/
theorem Agree.defineAll {last : Definitions} {es es' : List Equation} (h : Agree visible d d')
    (hsame : List.Forall₂ Equation.SameText es es')
    (huses : ∀ e ∈ es, ∀ word, Formula.Uses e.expression word → visible word)
    (hlast : d.defineAll es = (last, none)) :
    ∃ last', d'.defineAll es' = (last', none) ∧ Agree visible last last' := by
  induction hsame generalizing d d' with
  | nil =>
      obtain rfl : d = last := congrArg Prod.fst hlast
      exact ⟨d', rfl, h⟩
  | @cons e e' es es' hhead _ ih =>
      obtain ⟨huse, hrest⟩ := List.forall_mem_cons.mp huses
      obtain ⟨next, hnext, hlast⟩ := defineAll_cons_eq_iff.mp hlast
      obtain ⟨next', hnext', hagree⟩ := h.define hhead huse hnext
      obtain ⟨last', hlast', hresult⟩ := ih (hagree.mono fun _ => .inl) hrest hlast
      exact ⟨last', defineAll_cons_eq_iff.mpr ⟨next', hnext', hlast'⟩, hresult⟩

/-- Two equations that do not use each other's name can be defined in either order. -/
theorem define_comm {first last : Definitions} (hne : e.name ≠ e'.name)
    (huses : ¬ Formula.Uses e.expression e'.name) (huses' : ¬ Formula.Uses e'.expression e.name)
    (hfirst : d.define e = .ok first) (hlast : first.define e' = .ok last) :
    ∃ first' last', d.define e' = .ok first' ∧ first'.define e = .ok last' ∧
      Agree (fun _ => True) last last' := by
  obtain ⟨f, hf, rfl⟩ := define_eq_ok_iff.mp hfirst
  obtain ⟨f', hf', rfl⟩ := define_eq_ok_iff.mp hlast
  -- The formula of either equation is the same before and after the other name is bound.
  rw [d.formulaOf_insert f huses'] at hf'
  rw [← d.formulaOf_insert f' huses] at hf
  exact ⟨_, _, define_eq_ok_iff.mpr ⟨f', hf', rfl⟩, define_eq_ok_iff.mpr ⟨f, hf, rfl⟩,
    d.agree_insert_comm hne f f'⟩

/-- Neighbours that do not use each other's name can change places among other equations. -/
theorem defineAll_exchange {last : Definitions} {front back : List Equation}
    {moved moved' : Equation} (hsame : e.SameText moved) (hsame' : e'.SameText moved')
    (hne : e.name ≠ e'.name) (huses : ¬ Formula.Uses e.expression e'.name)
    (huses' : ¬ Formula.Uses e'.expression e.name)
    (h : d.defineAll (front ++ e :: e' :: back) = (last, none)) :
    ∃ last', d.defineAll (front ++ moved' :: moved :: back) = (last', none) ∧
      Agree (fun _ => True) last last' := by
  obtain ⟨middle, hfront, h⟩ := defineAll_append_eq_iff.mp h
  obtain ⟨first, hfirst, h⟩ := defineAll_cons_eq_iff.mp h
  obtain ⟨second, hsecond, h⟩ := defineAll_cons_eq_iff.mp h
  obtain ⟨first', second', hfirst', hsecond', hagree⟩ :=
    define_comm hne huses huses' hfirst hsecond
  obtain ⟨last', hlast', hresult⟩ :=
    hagree.defineAll (List.forall₂_same.mpr fun e _ => ⟨rfl, rfl⟩) (by simp) h
  refine ⟨last', defineAll_append_eq_iff.mpr ⟨middle, hfront, ?_⟩, hresult⟩
  rw [defineAll_cons_eq_iff]
  refine ⟨first', define_of_sameText hsame' hfirst', ?_⟩
  rw [defineAll_cons_eq_iff]
  exact ⟨second', define_of_sameText hsame hsecond', hlast'⟩

/-! ## Definitions that are not read -/

/-- No equation uses the name up to and including the next one that defines it. -/
def Unread (name : String) : List Equation → Prop
  | [] => True
  | e :: later => ¬ Formula.Uses e.expression name ∧ (e.name = name ∨ Unread name later)

/-- A name that is not read may be bound differently. The difference is gone once the name is
defined again. -/
theorem Agree.defineAll_unread {name : String} {last : Definitions} {es es' : List Equation}
    (h : Agree (· ≠ name) d d') (hsame : List.Forall₂ Equation.SameText es es')
    (hunread : Unread name es) (hlast : d.defineAll es = (last, none)) :
    ∃ last', d'.defineAll es' = (last', none) ∧
      Agree (fun other => other ≠ name ∨ ∃ e ∈ es, e.name = name) last last' := by
  induction hsame generalizing d d' with
  | nil =>
      obtain rfl : d = last := congrArg Prod.fst hlast
      exact ⟨d', rfl, h.mono (by simp)⟩
  | @cons e e' es es' hhead hrest ih =>
      rw [Unread] at hunread
      have huses : ∀ word, Formula.Uses e.expression word → word ≠ name := by
        rintro word hword rfl
        exact hunread.1 hword
      obtain ⟨next, hnext, hlast⟩ := defineAll_cons_eq_iff.mp hlast
      obtain ⟨next', hnext', hagree⟩ := h.define hhead huses hnext
      by_cases hname : e.name = name
      · have hall : Agree (fun _ => True) next next' := by
          apply hagree.mono
          intro other _
          rw [hname]
          exact ne_or_eq other name
        obtain ⟨last', hlast', hresult⟩ := hall.defineAll hrest (by simp) hlast
        exact ⟨last', defineAll_cons_eq_iff.mpr ⟨next', hnext', hlast'⟩, hresult.mono (by simp)⟩
      · have hlater : Unread name es := hunread.2.resolve_left hname
        obtain ⟨last', hlast', hresult⟩ := ih (hagree.mono fun _ => .inl) hlater hlast
        refine ⟨last', defineAll_cons_eq_iff.mpr ⟨next', hnext', hlast'⟩, hresult.mono ?_⟩
        simp [hname]

/-- An equation can be left out if its name is not read before it is defined again. Only the name
can show that it is missing. -/
theorem defineAll_delete {last : Definitions} {front back back' : List Equation}
    (hsame : List.Forall₂ Equation.SameText back back') (hunread : Unread e.name back)
    (h : d.defineAll (front ++ e :: back) = (last, none)) :
    ∃ last', d.defineAll (front ++ back') = (last', none) ∧
      Agree (fun other => other ≠ e.name ∨ ∃ e' ∈ back, e'.name = e.name) last last' := by
  obtain ⟨middle, hfront, h⟩ := defineAll_append_eq_iff.mp h
  obtain ⟨next, hnext, h⟩ := defineAll_cons_eq_iff.mp h
  obtain ⟨f, -, rfl⟩ := define_eq_ok_iff.mp hnext
  obtain ⟨last', hlast', hagree⟩ :=
    (middle.agree_insert e.name f).symm.defineAll_unread hsame hunread h
  exact ⟨last', defineAll_append_eq_iff.mpr ⟨middle, hfront, hlast'⟩, hagree⟩

/-! ## Outputs -/

theorem mem_outputIndices {d : Definitions} {i : Nat} :
    i ∈ d.outputIndices ↔ i < Text.indexBound ∧ (d.get? (Name.output i)).isSome = true := by
  rw [outputIndices, List.mem_filterMap, Definitions.get?, List.lookup_isSome_iff]
  constructor
  · rintro ⟨binding, hbinding, hindex⟩
    obtain ⟨hname, hi⟩ := Name.outputIndex?_eq_some_iff.mp hindex
    exact ⟨hi, binding, hbinding, by simp [hname]⟩
  · rintro ⟨hi, binding, hbinding, hname⟩
    have hname : binding.1 = Name.output i := (beq_iff_eq.mp hname).symm
    exact ⟨binding, hbinding, Name.outputIndex?_eq_some_iff.mpr ⟨hname, hi⟩⟩

theorem Agree.perm_outputIndices (h : Agree visible d d')
    (hvisible : ∀ k, visible (Name.output k)) : d.outputIndices.Perm d'.outputIndices := by
  rw [List.perm_ext_iff_of_nodup d.nodup_outputIndices d'.nodup_outputIndices]
  intro i
  rw [mem_outputIndices, mem_outputIndices, h.get? _ (hvisible i)]

theorem min?_eq_of_perm {is js : List Nat} (h : is.Perm js) : is.min? = js.min? := by
  cases hmin : js.min? with
  | none =>
      obtain rfl := List.min?_eq_none_iff.mp hmin
      rw [h.eq_nil]
      rfl
  | some i =>
      rw [List.min?_eq_some_iff] at hmin ⊢
      exact ⟨h.mem_iff.mpr hmin.1, fun j hj => hmin.2 j (h.mem_iff.mp hj)⟩

/-- Which outputs are selected does not depend on the order in which they were bound. -/
theorem Agree.outputs_eq (h : Agree visible d d') (hvisible : ∀ k, visible (Name.output k))
    (count : Nat) : d.outputs count = d'.outputs count := by
  have hperm := h.perm_outputIndices hvisible
  have houtput : d.output = d'.output := by
    funext index
    unfold output
    rw [h.get? _ (hvisible index)]
  unfold outputs
  rw [hperm.isEmpty_eq, min?_eq_of_perm (hperm.filter _), hperm.length_eq, houtput]

end Definitions

end ArrayLogic
