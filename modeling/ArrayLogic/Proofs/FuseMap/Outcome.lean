import ArrayLogic.Proofs.FuseMap.Assembly
import ArrayLogic.Proofs.Traversal

/-! # Outcomes of an assembly

What an assembly answers follows from the number of outputs, the number of distinct terms and the
first literal of an input that the device lacks, in this order. A term that is repeated, in one
output or in several, counts once.
-/

namespace ArrayLogic

/-! ## The first literal outside -/

/-- From left to right, the literal is the first one of an input that is not below the bound. -/
def Term.FirstOutside (bound : Nat) (t : Term) (l : Literal) : Prop :=
  bound ≤ l.index ∧ ∃ front back, t.literals = front ++ l :: back ∧ ∀ k ∈ front, k.index < bound

/-- The literal is the first one outside in its term, and no earlier term has one. -/
def FirstOutside (bound : Nat) (terms : List Term) (l : Literal) : Prop :=
  ∃ before t after, terms = before ++ t :: after ∧ t.FirstOutside bound l ∧
    ∀ s ∈ before, ∀ k ∈ s.literals, k.index < bound

theorem Term.find?_literals_eq_some_iff {bound : Nat} {t : Term} {l : Literal} :
    (t.literals.find? fun k => bound ≤ k.index) = some l ↔ t.FirstOutside bound l := by
  rw [List.find?_eq_some_iff_append]
  simp only [decide_eq_true_eq, Bool.not_eq_true', decide_eq_false_iff_not, Nat.not_le,
    FirstOutside]

theorem TermPool.find?_literals_eq_some_iff {pool : TermPool} {bound : Nat} {l : Literal} :
    (pool.literals.find? fun k => bound ≤ k.index) = some l ↔ FirstOutside bound pool.terms l := by
  rw [literals, List.find?_flatMap, List.findSome?_eq_some_iff]
  simp only [Term.find?_literals_eq_some_iff, List.find?_eq_none, decide_eq_true_eq, Nat.not_le,
    ArrayLogic.FirstOutside]

namespace FuseMap

variable {g : Geometry} {outputs : List (List Term)}

theorem find?_literals_eq_some_iff {bound : Nat} {l : Literal} :
    ((TermPool.ofOutputs outputs).literals.find? fun k => bound ≤ k.index) = some l ↔
      FirstOutside bound outputs.flatten.eraseDups l := by
  rw [TermPool.find?_literals_eq_some_iff, TermPool.terms_ofOutputs]

theorem exists_firstOutside_iff {bound : Nat} :
    (∃ l, FirstOutside bound outputs.flatten.eraseDups l) ↔
      ∃ terms ∈ outputs, ∃ t ∈ terms, ∃ l ∈ t.literals, bound ≤ l.index := by
  simp only [← find?_literals_eq_some_iff]
  rw [← Option.isSome_iff_exists, Option.isSome_iff_ne_none, ne_eq, find?_literals_eq_none_iff]
  simp only [not_forall, exists_prop, Nat.not_lt]

/-! ## Answers -/

/-- The answer to an assembly. Of the conditions that fail, the first one is reported. -/
inductive Outcome (g : Geometry) (outputs : List (List Term)) :
    Except AssemblyError (FuseMap g) → Prop
  | tooManyOutputs (hlength : g.outputs < outputs.length) :
      Outcome g outputs (.error (.tooManyOutputs outputs.length g.outputs))
  | capacityExceeded (hlength : outputs.length ≤ g.outputs)
      (hcapacity : g.terms < outputs.flatten.toFinset.card) :
      Outcome g outputs (.error (.capacityExceeded outputs.flatten.toFinset.card g.terms))
  | signalOutOfRange {l : Literal} (hlength : outputs.length ≤ g.outputs)
      (hcapacity : outputs.flatten.toFinset.card ≤ g.terms)
      (hfirst : FirstOutside g.inputs outputs.flatten.eraseDups l) :
      Outcome g outputs (.error (.signalOutOfRange l g.inputs))
  | assembled (hlength : outputs.length ≤ g.outputs)
      (hcapacity : outputs.flatten.toFinset.card ≤ g.terms)
      (hinside : ∀ terms ∈ outputs, ∀ t ∈ terms, ∀ l ∈ t.literals, l.index < g.inputs) :
      Outcome g outputs (.ok (ofPool g (.ofOutputs outputs) outputs))

theorem assemble_of_lt_length (h : g.outputs < outputs.length) :
    assemble g outputs = .error (.tooManyOutputs outputs.length g.outputs) := by
  rw [assemble, if_pos h]

theorem assemble_of_firstOutside {l : Literal} (hlength : outputs.length ≤ g.outputs)
    (hcapacity : (TermPool.ofOutputs outputs).size ≤ g.terms)
    (hfirst : FirstOutside g.inputs outputs.flatten.eraseDups l) :
    assemble g outputs = .error (.signalOutOfRange l g.inputs) := by
  simp only [assemble, TermPool.checkCapacity, if_neg (Nat.not_lt.mpr hlength),
    if_neg (Nat.not_lt.mpr hcapacity), find?_literals_eq_some_iff.mpr hfirst]

theorem Outcome.assemble_eq {r : Except AssemblyError (FuseMap g)} (h : Outcome g outputs r) :
    assemble g outputs = r := by
  have hsize := TermPool.size_ofOutputs outputs
  cases h with
  | tooManyOutputs hlength => exact assemble_of_lt_length hlength
  | capacityExceeded hlength hcapacity =>
      rw [← hsize] at hcapacity ⊢
      exact assemble_of_capacity_lt hlength hcapacity
  | signalOutOfRange hlength hcapacity hfirst =>
      exact assemble_of_firstOutside hlength (hsize.trans_le hcapacity) hfirst
  | assembled hlength hcapacity hinside =>
      exact assemble_eq_ok_iff.mpr ⟨⟨hlength, hinside⟩, hsize.trans_le hcapacity, rfl⟩

/-- One of the answers always applies. -/
theorem exists_outcome (g : Geometry) (outputs : List (List Term)) : ∃ r, Outcome g outputs r := by
  by_cases hlength : g.outputs < outputs.length
  · exact ⟨_, .tooManyOutputs hlength⟩
  rw [Nat.not_lt] at hlength
  by_cases hcapacity : g.terms < outputs.flatten.toFinset.card
  · exact ⟨_, .capacityExceeded hlength hcapacity⟩
  rw [Nat.not_lt] at hcapacity
  cases hfind : (TermPool.ofOutputs outputs).literals.find? fun l => g.inputs ≤ l.index with
  | some l => exact ⟨_, .signalOutOfRange hlength hcapacity (find?_literals_eq_some_iff.mp hfind)⟩
  | none => exact ⟨_, .assembled hlength hcapacity (find?_literals_eq_none_iff.mp hfind)⟩

theorem assemble_eq_iff {r : Except AssemblyError (FuseMap g)} :
    assemble g outputs = r ↔ Outcome g outputs r :=
  eq_iff_of_exists (exists_outcome g outputs) fun _ => Outcome.assemble_eq

/-- The terms of the outputs may be repeated and moved between outputs. -/
theorem assemble_repeated {repeated : List (List Term)} (hlength : repeated.length ≤ g.outputs)
    (hsame : ∀ t, t ∈ repeated.flatten ↔ t ∈ outputs.flatten) {f : FuseMap g}
    (h : assemble g outputs = .ok f) :
    ∃ f', assemble g repeated = .ok f' ∧ f'.poolSize = f.poolSize := by
  obtain ⟨hfits, hcapacity, rfl⟩ := assemble_eq_ok_iff.mp h
  have hsize : (TermPool.ofOutputs repeated).size = (TermPool.ofOutputs outputs).size := by
    have hset : repeated.flatten.toFinset = outputs.flatten.toFinset := by
      ext t
      rw [List.mem_toFinset, List.mem_toFinset, hsame]
    rw [TermPool.size_ofOutputs, TermPool.size_ofOutputs, hset]
  have hinside : Fits g repeated := by
    refine ⟨hlength, ?_⟩
    intro terms hterms t ht
    obtain ⟨terms', hterms', ht'⟩ :=
      List.mem_flatten.mp ((hsame t).mp (List.mem_flatten_of_mem hterms ht))
    exact hfits.index_lt terms' hterms' t ht'
  exact ⟨_, assemble_eq_ok_iff.mpr ⟨hinside, hsize.trans_le hcapacity, rfl⟩, hsize⟩

/-- Assembly reports too many outputs, else too many distinct terms, else the first literal of an
input that the device lacks, and otherwise succeeds. In particular the distinct terms may take up
all columns, and repeating them in any output does not cost one. -/
theorem assemble_outcome (g : Geometry) (outputs : List (List Term)) :
    (∀ r, assemble g outputs = r ↔ Outcome g outputs r) ∧
      ((∃ l, FirstOutside g.inputs outputs.flatten.eraseDups l) ↔
        ∃ terms ∈ outputs, ∃ t ∈ terms, ∃ l ∈ t.literals, g.inputs ≤ l.index) ∧
      (Fits g outputs → outputs.flatten.toFinset.card = g.terms →
        ∃ f, assemble g outputs = .ok f ∧ f.poolSize = g.terms) ∧
      ∀ repeated : List (List Term), repeated.length ≤ g.outputs →
        (∀ t, t ∈ repeated.flatten ↔ t ∈ outputs.flatten) → ∀ f, assemble g outputs = .ok f →
          ∃ f', assemble g repeated = .ok f' ∧ f'.poolSize = f.poolSize := by
  refine ⟨fun r => assemble_eq_iff, exists_firstOutside_iff, ?_, ?_⟩
  · intro hfits hfull
    refine ⟨_, (Outcome.assembled hfits.length_le hfull.le hfits.index_lt).assemble_eq, ?_⟩
    rw [← hfull]
    exact TermPool.size_ofOutputs outputs
  · intro repeated hlength hsame f h
    exact assemble_repeated hlength hsame h

/-- Two terms fill both columns, also when they are repeated. The same literals in another order are
one term too many. A literal outside is reported where the scan of the distinct terms meets it. -/
theorem assemble_outcome_full_device :
    let lit (k : Nat) (p : Polarity) : Literal := (Signal.ofIndex k).literal p
    let a := lit 0 .direct
    let b := lit 1 .complement
    let g : Geometry := ⟨2, 2, 2⟩
    let outputs : List (List Term) := [[⟨[a, b]⟩, ⟨[a]⟩]]
    let repeated : List (List Term) := [[⟨[a]⟩, ⟨[a, b]⟩, ⟨[a]⟩], [⟨[a, b]⟩]]
    let turned : List (List Term) := [[⟨[a, b]⟩], [⟨[b, a]⟩, ⟨[a]⟩]]
    let outside : List (List Term) := [[⟨[b]⟩], [⟨[b]⟩, ⟨[a, lit 3 .complement, lit 2 .direct]⟩]]
    Fits g outputs ∧ outputs.flatten.toFinset.card = g.terms ∧
      (∃ f, assemble g outputs = .ok f ∧ f.poolSize = 2 ∧
        ∃ f', assemble g repeated = .ok f' ∧ f'.poolSize = f.poolSize) ∧
      Outcome g turned (.error (.capacityExceeded 3 2)) ∧
      Outcome g outside (.error (.signalOutOfRange (lit 3 .complement) 2)) := by
  intro lit a b g outputs repeated turned outside
  have hfits : Fits g outputs := ⟨by decide, by decide⟩
  have hfull : outputs.flatten.toFinset.card = g.terms := by decide
  have hold : ∀ t ∈ repeated.flatten, t ∈ outputs.flatten := by decide
  have hkept : ∀ t ∈ outputs.flatten, t ∈ repeated.flatten := by decide
  have hsame : ∀ t, t ∈ repeated.flatten ↔ t ∈ outputs.flatten := fun t => ⟨hold t, hkept t⟩
  obtain ⟨-, -, hassembled, hrepeated⟩ := assemble_outcome g outputs
  obtain ⟨f, hf, hsize⟩ := hassembled hfits hfull
  refine ⟨hfits, hfull, ⟨f, hf, hsize, hrepeated repeated (by decide) hsame f hf⟩, ?_, ?_⟩
  · exact ((assemble_outcome g turned).1 _).mp (by decide +kernel)
  · exact ((assemble_outcome g outside).1 _).mp (by decide +kernel)

end FuseMap

end ArrayLogic
