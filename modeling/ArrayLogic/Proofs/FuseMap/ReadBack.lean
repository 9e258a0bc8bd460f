import ArrayLogic.Proofs.FuseMap.Assembly
import Mathlib.Data.List.Sort

/-! # Reading back an assembled fuse map

The rows that are connected to a column spell a term, with its literals in increasing order of their
codes. If the terms of the outputs are in this order, then they can be read back from the planes:
each column spells a term of its own, and the columns of an output spell its terms.
-/

namespace ArrayLogic

/-- The literals stand in strictly increasing order of their codes. -/
def Term.Increasing (t : Term) : Prop :=
  t.literals.Pairwise (·.code < ·.code)

instance (t : Term) : Decidable t.Increasing :=
  inferInstanceAs (Decidable (t.literals.Pairwise _))

namespace FuseMap

variable {g : Geometry}

/-- The term that the rows connected to a column spell, from the first row to the last. -/
def readColumn (f : FuseMap g) (k : Nat) : Term :=
  ⟨((List.range g.andRows).filter (f.andPlane.bit · k)).map Literal.ofCode⟩

/-- A term in order is told by the rows of its literals. -/
theorem map_ofCode_eq_literals {rows : List Nat} (hrows : rows.Pairwise (· < ·)) {t : Term}
    (ht : t.Increasing) (h : ∀ row, row ∈ rows ↔ ∃ l ∈ t.literals, l.code = row) :
    rows.map Literal.ofCode = t.literals := by
  have hcodes : (t.literals.map Literal.code).Pairwise (· < ·) := List.pairwise_map.mpr ht
  have hsame : rows = t.literals.map Literal.code := by
    refine hrows.eq_of_mem_iff hcodes fun row => ?_
    rw [h row, List.mem_map]
  rw [hsame, List.map_map]
  exact (List.map_congr_left fun l _ => l.ofCode_code).trans (List.map_id _)

/-- The terms are read back from the planes. -/
structure ReadsBack (f : FuseMap g) (outputs : List (List Term)) : Prop where
  /-- No two columns in use spell the same term. -/
  distinct : ((List.range f.poolSize).map f.readColumn).Nodup
  configured : f.configured = outputs.length
  used : ∀ o k, f.orPlane.bit o k = true → k < f.poolSize
  /-- The columns that are connected to an output spell its terms and no others. -/
  mem_iff : ∀ o terms, outputs[o]? = some terms → ∀ t,
    t ∈ terms ↔ ∃ k, f.orPlane.bit o k = true ∧ f.readColumn k = t
  /-- Each term of an output is spelled by one of its columns only. -/
  existsUnique : ∀ o terms, outputs[o]? = some terms → ∀ t ∈ terms,
    ∃! k, f.orPlane.bit o k = true ∧ f.readColumn k = t

section Assembled

variable {outputs : List (List Term)} {f : FuseMap g} (h : assemble g outputs = .ok f)
  (hincreasing : ∀ terms ∈ outputs, ∀ t ∈ terms, t.Increasing)
include h hincreasing

theorem readColumn_of_assemble {k : Nat} {t : Term}
    (hk : (TermPool.ofOutputs outputs).term? k = some t) : f.readColumn k = t := by
  obtain ⟨terms, hterms, ht⟩ := TermPool.mem_ofOutputs.mp (List.mem_of_getElem? hk)
  rcases t with ⟨literals⟩
  refine congrArg Term.mk (map_ofCode_eq_literals (List.pairwise_lt_range.filter _)
    (hincreasing terms hterms _ ht) fun row => ?_)
  have hconnected : f.andPlane.bit row k = true ↔ ∃ l ∈ literals, l.code = row := by
    rw [bit_andPlane_of_assemble h, hk]
    simp
  -- A bit that is set lies inside the plane, so the range misses no row.
  have hinside : f.andPlane.bit row k = true → row < g.andRows :=
    fun hbit => (BitMatrix.lt_of_bit hbit).1
  rw [List.mem_filter, List.mem_range, and_iff_right_of_imp hinside, hconnected]

theorem map_readColumn_of_assemble :
    (List.range f.poolSize).map f.readColumn = (TermPool.ofOutputs outputs).terms := by
  apply List.ext_getElem
  · rw [List.length_map, List.length_range, poolSize_of_assemble h, TermPool.size]
  · intro k hk hk'
    rw [List.getElem_map, List.getElem_range]
    exact readColumn_of_assemble h hincreasing (List.getElem?_eq_getElem hk')

/-- The column of an output that spells a term is the one that the pool has given it. -/
theorem connected_and_readColumn_iff {o k : Nat} {t : Term} :
    f.orPlane.bit o k = true ∧ f.readColumn k = t ↔ ∃ terms, outputs[o]? = some terms ∧
      t ∈ terms ∧ (TermPool.ofOutputs outputs).term? k = some t := by
  rw [bit_orPlane_of_assemble h]
  constructor
  · rintro ⟨⟨terms, s, hterms, hs, hk⟩, rfl⟩
    rw [readColumn_of_assemble h hincreasing hk]
    exact ⟨terms, hterms, hs, hk⟩
  · rintro ⟨terms, hterms, ht, hk⟩
    exact ⟨⟨terms, t, hterms, ht, hk⟩, readColumn_of_assemble h hincreasing hk⟩

theorem existsUnique_column {o : Nat} {terms : List Term} (hterms : outputs[o]? = some terms)
    {t : Term} (ht : t ∈ terms) : ∃! k, f.orPlane.bit o k = true ∧ f.readColumn k = t := by
  have hpool := TermPool.mem_ofOutputs.mpr ⟨terms, List.mem_of_getElem? hterms, ht⟩
  obtain ⟨k, hk⟩ := TermPool.exists_term?_of_mem hpool
  refine ⟨k, (connected_and_readColumn_iff h hincreasing).mpr ⟨terms, hterms, ht, hk⟩, ?_⟩
  intro k' hk'
  obtain ⟨-, -, -, hcolumn⟩ := (connected_and_readColumn_iff h hincreasing).mp hk'
  rw [← TermPool.column?_eq_some_iff] at hk hcolumn
  exact Option.some.inj (hcolumn.symm.trans hk)

end Assembled

/-- The terms of cubes are in order. If the terms of all outputs are, then an assembled fuse map can
be read back: its columns spell pairwise different terms, and those of an output spell its terms,
each of them once. -/
theorem readsBack_of_assemble :
    (∀ c : Cube, c.Reachable → c.term.Increasing) ∧
      ∀ (outputs : List (List Term)) (f : FuseMap g), assemble g outputs = .ok f →
        (∀ terms ∈ outputs, ∀ t ∈ terms, t.Increasing) → f.ReadsBack outputs := by
  refine ⟨fun c hc => hc.ordered.code_lt, ?_⟩
  intro outputs f h hincreasing
  constructor
  case distinct =>
    rw [map_readColumn_of_assemble h hincreasing]
    exact (TermPool.ofOutputs outputs).distinct
  case configured => exact configured_of_assemble h
  case used =>
    intro o k hbit
    obtain ⟨_, _, _, _, hk⟩ := (bit_orPlane_of_assemble h).mp hbit
    rw [poolSize_of_assemble h]
    exact TermPool.lt_size_of_term? hk
  case mem_iff =>
    intro o terms hterms t
    refine ⟨fun ht => (existsUnique_column h hincreasing hterms ht).exists, ?_⟩
    rintro ⟨k, hk⟩
    obtain ⟨terms', hterms', ht, -⟩ := (connected_and_readColumn_iff h hincreasing).mp hk
    obtain rfl := Option.some.inj (hterms.symm.trans hterms')
    exact ht
  case existsUnique =>
    intro o terms hterms t ht
    exact existsUnique_column h hincreasing hterms ht

/-- Two outputs share a term, and one of them lists the empty term, which connects no row. The
device has more columns than fit a word. -/
theorem readsBack_of_assemble_shared_term :
    let a : Literal := (Signal.ofIndex 0).literal .complement
    let b : Literal := (Signal.ofIndex 1).literal .direct
    let g : Geometry := ⟨2, 70, 3⟩
    let shared : Cube := ⟨[a, b]⟩
    let outputs : List (List Term) := [[shared.term, ⟨[]⟩], [⟨[b]⟩, shared.term]]
    shared.Reachable ∧ shared.term.Increasing ∧
      ∃ f : FuseMap g, assemble g outputs = .ok f ∧ f.ReadsBack outputs ∧
        (List.range f.poolSize).map f.readColumn = [shared.term, ⟨[]⟩, ⟨[b]⟩] := by
  intro a b g shared outputs
  have hshared : shared.Reachable := .and (.ofLiteral b) (.ofLiteral a) (by decide)
  have hincreasing : ∀ terms ∈ outputs, ∀ t ∈ terms, t.Increasing := by decide
  have h : assemble g outputs = .ok (ofPool g (.ofOutputs outputs) outputs) := by decide +kernel
  obtain ⟨hterm, hread⟩ := readsBack_of_assemble (g := g)
  exact ⟨hshared, hterm shared hshared, _, h, hread outputs _ h hincreasing, by decide +kernel⟩

end FuseMap

end ArrayLogic
