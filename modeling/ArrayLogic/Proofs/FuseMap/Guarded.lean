import ArrayLogic.FuseMap.Diagram
import ArrayLogic.Proofs.BitMatrix.Guarded
import ArrayLogic.Proofs.Device
import ArrayLogic.Proofs.FuseMap.Buffer

/-! # Guarded work on fuse maps

Assembly and the readers of a fuse map can be written with guarded access, so that they fail as soon
as a position lies outside a plane, a byte outside a buffer, a term outside the pool or a number
outside a machine word. In a device whose numbers fit a machine word none of them fails: the checks
of the assembly keep all positions inside the planes, and the lengths of the planes and buffers do
the rest.
-/

namespace ArrayLogic

open Text (bitChar)

variable {g : Geometry}

/-! ## Planes of a representable device -/

theorem Word.countFor_le (columns : Nat) : countFor columns ≤ columns := by
  unfold countFor
  omega

theorem Geometry.Representable.andWords_lt (h : g.Representable) :
    g.andRows * Word.countFor g.terms < Nat.pow 2 64 :=
  Nat.lt_of_le_of_lt (Nat.mul_le_mul_left _ (Word.countFor_le _)) h.andBits_lt

theorem Geometry.Representable.orWords_lt (h : g.Representable) :
    g.outputs * Word.countFor g.terms < Nat.pow 2 64 := by
  have hbits := h.orBits_lt
  rw [orBits, Nat.mul_comm] at hbits
  exact Nat.lt_of_le_of_lt (Nat.mul_le_mul_left _ (Word.countFor_le _)) hbits

namespace TermPool

/-! ## Connections -/

/-- The literals of all terms, each with the column of its term. -/
def connections (pool : TermPool) : List (Literal × Nat) :=
  pool.terms.zipIdx.flatMap fun (t, column) => t.literals.map fun l => (l, column)

/-- The terms of all outputs, each with the row of its output. -/
def uses (outputs : List (List Term)) : List (Nat × Term) :=
  outputs.zipIdx.flatMap fun (terms, row) => terms.map fun t => (row, t)

theorem literals_eq (pool : TermPool) : pool.literals = pool.connections.map Prod.fst := by
  rw [connections, List.map_flatMap, literals, ← flatMap_zipIdx_fst]
  simp [Function.comp_def]

theorem andFuses_eq (pool : TermPool) :
    pool.andFuses = pool.connections.map fun (l, column) => (l.code, column) := by
  rw [connections, List.map_flatMap, andFuses]
  simp [Function.comp_def]

theorem orFuses_eq (pool : TermPool) (outputs : List (List Term)) : pool.orFuses outputs =
    (uses outputs).filterMap fun (row, t) => (pool.column? t).map fun column => (row, column) := by
  rw [uses, List.filterMap_flatMap, orFuses]
  simp [List.filterMap_map]

theorem lt_size_of_mem_connections {pool : TermPool} {l : Literal} {column : Nat}
    (h : (l, column) ∈ pool.connections) : column < pool.size := by
  have hfuse : (l.code, column) ∈ pool.andFuses := by
    rw [andFuses_eq]
    exact List.mem_map_of_mem h
  obtain ⟨t, ht, -⟩ := mem_andFuses.mp hfuse
  exact lt_size_of_term? ht

theorem mem_uses {outputs : List (List Term)} {row : Nat} {t : Term} :
    (row, t) ∈ uses outputs ↔ ∃ terms, outputs[row]? = some terms ∧ t ∈ terms := by
  simp only [uses, List.mem_flatMap, List.mem_map, Prod.mk.injEq]
  constructor
  · intro hparts
    obtain ⟨⟨terms, i⟩, hterms, t, ht, rfl, rfl⟩ := hparts
    exact ⟨terms, List.mk_mem_zipIdx_iff_getElem?.mp hterms, ht⟩
  · intro hparts
    obtain ⟨terms, hterms, ht⟩ := hparts
    exact ⟨(terms, row), List.mk_mem_zipIdx_iff_getElem?.mpr hterms, t, ht, rfl, rfl⟩

/-- Every term of an output is found in the pool. -/
theorem exists_column?_ofOutputs {outputs : List (List Term)} {terms : List Term} {t : Term}
    (hterms : terms ∈ outputs) (ht : t ∈ terms) :
    ∃ column, (ofOutputs outputs).column? t = some column := by
  obtain ⟨column, hcolumn⟩ := exists_term?_of_mem (mem_ofOutputs.mpr ⟨terms, hterms, ht⟩)
  exact ⟨column, column?_eq_some_iff.mpr hcolumn⟩

end TermPool

namespace FuseMap

/-! ## Assembly -/

/-- Sets the fuses of the AND plane one after another, up to a literal that the device lacks. -/
def guardedConnect (m : BitMatrix g.andRows g.terms) :
    List (Literal × Nat) → Option (Except AssemblyError (BitMatrix g.andRows g.terms))
  | [] => some (.ok m)
  | (l, column) :: rest =>
      if g.inputs ≤ l.index then some (.error (.signalOutOfRange l g.inputs))
      else (m.guardedSet l.code column).bind (guardedConnect · rest)

/-- Sets a fuse of the OR plane in the column that the pool gives a term. -/
def guardedJoin (pool : TermPool) (m : BitMatrix g.outputs g.terms) (use : Nat × Term) :
    Option (BitMatrix g.outputs g.terms) :=
  (pool.column? use.2).bind (m.guardedSet use.1)

/-- The fuse map of a pool. All positions are guarded, and all terms must be in the pool. -/
def guardedOfPool (g : Geometry) (pool : TermPool) (outputs : List (List Term)) :
    Option (Except AssemblyError (FuseMap g)) := do
  let _ ← Word.number? g.andRows
  let ands ← BitMatrix.guardedZero g.andRows g.terms
  match ← guardedConnect ands pool.connections with
  | .error error => return .error error
  | .ok andPlane =>
      let ors ← BitMatrix.guardedZero g.outputs g.terms
      let orPlane ← (TermPool.uses outputs).foldlM (guardedJoin pool) ors
      return .ok ⟨andPlane, orPlane, pool.size, outputs.length⟩

/-- Assembly that stops at a position outside a plane and at a term that is not in the pool. -/
def guardedAssemble (g : Geometry) (outputs : List (List Term)) :
    Option (Except AssemblyError (FuseMap g)) :=
  let pool := TermPool.ofOutputs outputs
  if g.outputs < outputs.length then some (.error (.tooManyOutputs outputs.length g.outputs))
  else match pool.checkCapacity g.terms with
    | .error error => some (.error error)
    | .ok () => guardedOfPool g pool outputs

theorem code_lt_andRows {l : Literal} (h : l.index < g.inputs) : l.code < g.andRows := by
  have hcode := l.code_div_two
  change l.code < 2 * g.inputs
  omega

section Representable

variable (hg : g.Representable)
include hg

theorem guardedConnect_eq (m : BitMatrix g.andRows g.terms) {connections : List (Literal × Nat)}
    (h : ∀ connection ∈ connections, connection.2 < g.terms) :
    guardedConnect m connections = some
      (match (connections.map Prod.fst).find? fun l => g.inputs ≤ l.index with
        | some l => .error (.signalOutOfRange l g.inputs)
        | none => .ok (m.setAll (connections.map fun (l, column) => (l.code, column)))) := by
  induction connections generalizing m with
  | nil => rfl
  | cons connection rest ih =>
      obtain ⟨l, column⟩ := connection
      obtain ⟨hcolumn, hrest⟩ := List.forall_mem_cons.mp h
      by_cases houtside : g.inputs ≤ l.index
      · simp [guardedConnect, houtside]
      · -- The check of the index is what keeps the row inside.
        have hrow := code_lt_andRows (Nat.not_le.mp houtside)
        rw [guardedConnect, if_neg houtside, BitMatrix.guardedSet_eq hg.andWords_lt, BitMatrix.set?,
          if_pos ⟨hrow, hcolumn⟩, Option.bind_some, ih _ hrest, List.map_cons,
          List.find?_cons_of_neg (by simpa using houtside)]
        rfl

theorem foldlM_guardedJoin_eq {pool : TermPool} (hcapacity : pool.size ≤ g.terms)
    (m : BitMatrix g.outputs g.terms) {uses : List (Nat × Term)}
    (h : ∀ use ∈ uses, use.1 < g.outputs ∧ ∃ column, pool.column? use.2 = some column) :
    uses.foldlM (guardedJoin pool) m = some (m.setAll (uses.filterMap
      fun (row, t) => (pool.column? t).map fun column => (row, column))) := by
  induction uses generalizing m with
  | nil => rfl
  | cons use rest ih =>
      obtain ⟨row, t⟩ := use
      obtain ⟨⟨hrow, column, hfound⟩, hrest⟩ := List.forall_mem_cons.mp h
      have hcolumn : column < g.terms :=
        Nat.lt_of_lt_of_le (TermPool.lt_size_of_term? (TermPool.column?_eq_some_iff.mp hfound))
          hcapacity
      have hstep : guardedJoin pool m (row, t) = some (m.set row column true) := by
        rw [guardedJoin, hfound, Option.bind_some, BitMatrix.guardedSet_eq hg.orWords_lt,
          BitMatrix.set?, if_pos ⟨hrow, hcolumn⟩]
      rw [List.foldlM_cons, hstep, Option.bind_eq_bind, Option.bind_some, ih _ hrest]
      simp [hfound, BitMatrix.setAll]

theorem guardedOfPool_eq {pool : TermPool} {outputs : List (List Term)}
    (hcapacity : pool.size ≤ g.terms)
    (huses : ∀ use ∈ TermPool.uses outputs,
      use.1 < g.outputs ∧ ∃ column, pool.column? use.2 = some column) :
    guardedOfPool g pool outputs = some
      (match pool.literals.find? fun l => g.inputs ≤ l.index with
        | some l => .error (.signalOutOfRange l g.inputs)
        | none => .ok (ofPool g pool outputs)) := by
  have hcolumns : ∀ connection ∈ pool.connections, connection.2 < g.terms := by
    intro connection hconnection
    exact Nat.lt_of_lt_of_le (TermPool.lt_size_of_mem_connections hconnection) hcapacity
  simp only [guardedOfPool, Word.number?_eq hg.andRows_lt, BitMatrix.guardedZero_eq hg.andWords_lt,
    Option.bind_eq_bind, Option.bind_some, guardedConnect_eq hg _ hcolumns, ← TermPool.literals_eq,
    ← TermPool.andFuses_eq]
  cases pool.literals.find? fun l => g.inputs ≤ l.index with
  | some l => rfl
  | none =>
      simp only [BitMatrix.guardedZero_eq hg.orWords_lt, Option.bind_some,
        foldlM_guardedJoin_eq hg hcapacity _ huses, ← TermPool.orFuses_eq]
      rfl

theorem guardedAssemble_eq (outputs : List (List Term)) :
    guardedAssemble g outputs = some (assemble g outputs) := by
  rw [guardedAssemble, assemble]
  -- Each check that is passed bounds the rows or the columns of all later positions.
  by_cases hmany : g.outputs < outputs.length
  · simp only [if_pos hmany]
  by_cases hcapacity : g.terms < (TermPool.ofOutputs outputs).size
  · simp only [if_neg hmany, TermPool.checkCapacity, if_pos hcapacity]
  have huses : ∀ use ∈ TermPool.uses outputs, use.1 < g.outputs ∧
      ∃ column, (TermPool.ofOutputs outputs).column? use.2 = some column := by
    intro use huse
    obtain ⟨terms, hterms, ht⟩ := TermPool.mem_uses.mp huse
    have hrow := (List.getElem?_eq_some_iff.mp hterms).1
    exact ⟨Nat.lt_of_lt_of_le hrow (Nat.not_lt.mp hmany),
      TermPool.exists_column?_ofOutputs (List.mem_of_getElem? hterms) ht⟩
  simp only [if_neg hmany, TermPool.checkCapacity, if_neg hcapacity]
  exact guardedOfPool_eq hg (Nat.not_lt.mp hcapacity) huses

end Representable

/-! ## Readers -/

/-- The flat configuration, read from both planes. -/
def guardedBits (f : FuseMap g) : Option (List Bool) := do
  let ands ← f.andPlane.guardedBits
  let ors ← f.orPlane.guardedBits
  return ands ++ ors

/-- The bit at a place. Places are divided by the number of terms, which must not be zero. -/
def guardedBit (f : FuseMap g) (place : Nat) : Option Bool := do
  let size ← Word.number? g.bitCount
  let ands ← Word.number? g.andBits
  guard (place < size)
  guard (0 < g.terms)
  if place < ands then f.andPlane.guardedBit (place / g.terms) (place % g.terms)
  else f.orPlane.guardedBit ((place - ands) / g.terms) ((place - ands) % g.terms)

/-- The packed configuration, written into a buffer. -/
def guardedBytes (f : FuseMap g) : Option (List Byte) := do
  let size ← Word.number? g.bitCount
  let bits ← f.guardedBits
  Byte.guardedPack size bits

/-- The line of a row of the AND plane. -/
def guardedAndLine (f : FuseMap g) (row : Nat) : Option (List Char) := do
  let bits ← f.andPlane.guardedRow row
  let name := (Literal.ofCode row).chars
  return name ++ List.replicate (nameWidth g - name.length) ' ' ++ ['-', '>', ' '] ++
    bits.map bitChar

/-- The line of a row of the OR plane. -/
def guardedOrLine (f : FuseMap g) (output : Nat) : Option (List Char) := do
  let bits ← f.orPlane.guardedRow output
  return indent g ++ bits.map bitChar ++ [' ', '-', '>', ' ', 'O'] ++ Nat.toDigits 10 output

def guardedDiagram (f : FuseMap g) : Option String := do
  let rows ← Word.number? g.andRows
  let ands ← (List.range rows).mapM f.guardedAndLine
  let ors ← (List.range g.outputs).mapM f.guardedOrLine
  return String.ofList ((ands ++ termLine g :: ors).flatMap (· ++ ['\n']))

end FuseMap

namespace Encoding

def guardedVerilogChars (f : FuseMap g) : Option (List Char) := do
  let size ← Word.number? g.bitCount
  let bits ← f.guardedBits
  return Nat.toDigits 10 size ++ ['\x27', 'b'] ++ bits.map bitChar

/-- A fuse map in an encoding, from guarded bits and bytes. -/
def guardedChars (f : FuseMap g) : Encoding → Option (List Char)
  | verilog => guardedVerilogChars f
  | arduino => f.guardedBytes.map arduinoChars
  | python => f.guardedBytes.map pythonChars
  | hex => f.guardedBytes.map hexChars
  | all => do
      let literal ← guardedVerilogChars f
      let bytes ← f.guardedBytes
      return "Bitstream for verilog is:\n".toList ++ literal ++
        "\n\nBitstream for Arduino sketch\n".toList ++ arduinoChars bytes ++
        "\n\nPython array:\n".toList ++ pythonChars bytes

def guardedRender (e : Encoding) (f : FuseMap g) : Option String :=
  (e.guardedChars f).map String.ofList

end Encoding

namespace FuseMap

/-- No reader leaves the planes and buffers of a fuse map, and each gives what is there. -/
structure ReadsInside (f : FuseMap g) : Prop where
  bits : f.guardedBits = some f.bits
  bit : ∀ place < f.size, ∃ bit, f.guardedBit place = some bit ∧ f.bit? place = some bit
  bytes : f.guardedBytes = some f.bytes
  diagram : f.guardedDiagram = some f.diagram
  render : ∀ e : Encoding, e.guardedRender f = some (e.render f)

section Readers

variable (hg : g.Representable) (f : FuseMap g)
include hg

theorem guardedBits_eq : f.guardedBits = some f.bits := by
  rw [guardedBits, BitMatrix.guardedBits_eq hg.andWords_lt, BitMatrix.guardedBits_eq hg.orWords_lt]
  rfl

theorem guardedBit_eq {place : Nat} (h : place < f.size) : f.guardedBit place = f.bit? place := by
  have hsize : place < g.bitCount := h
  -- A place belongs to a fuse, and the device of a fuse has terms.
  obtain ⟨x, -⟩ := Fuse.exists_place_eq hsize
  rw [guardedBit, Word.number?_eq hg.bitCount_lt, Word.number?_eq hg.andBits_lt, bit?]
  simp only [Option.bind_eq_bind, Option.bind_some, guard, if_pos hsize, if_pos x.terms_pos]
  split
  · exact BitMatrix.guardedBit_eq hg.andWords_lt _ _ _
  · exact BitMatrix.guardedBit_eq hg.orWords_lt _ _ _

theorem exists_guardedBit_eq {place : Nat} (h : place < f.size) :
    ∃ bit, f.guardedBit place = some bit ∧ f.bit? place = some bit := by
  have hplace : place < f.bits.length := f.length_bits ▸ h
  have hbit : f.bit? place = some f.bits[place] := by
    rw [← f.getElem?_bits, List.getElem?_eq_getElem hplace]
  exact ⟨_, (guardedBit_eq hg f h).trans hbit, hbit⟩

theorem guardedBytes_eq : f.guardedBytes = some f.bytes := by
  have hpack := Byte.guardedPack_eq f.bits
  rw [length_bits] at hpack
  rw [guardedBytes, Word.number?_eq hg.bitCount_lt, guardedBits_eq hg]
  exact hpack

theorem guardedDiagram_eq : f.guardedDiagram = some f.diagram := by
  have hands : (List.range g.andRows).mapM f.guardedAndLine =
      some ((List.range g.andRows).map f.andLine) := by
    apply mapM_eq_some_map
    intro row hrow
    rw [guardedAndLine, BitMatrix.guardedRow_eq hg.andWords_lt _ (List.mem_range.mp hrow)]
    rfl
  have hors : (List.range g.outputs).mapM f.guardedOrLine =
      some ((List.range g.outputs).map f.orLine) := by
    apply mapM_eq_some_map
    intro output houtput
    rw [guardedOrLine, BitMatrix.guardedRow_eq hg.orWords_lt _ (List.mem_range.mp houtput)]
    rfl
  rw [guardedDiagram, Word.number?_eq hg.andRows_lt]
  simp only [Option.bind_eq_bind, Option.bind_some, hands, hors]
  rfl

theorem guardedVerilogChars_eq :
    Encoding.guardedVerilogChars f = some (Encoding.verilogChars f) := by
  rw [Encoding.guardedVerilogChars, Word.number?_eq hg.bitCount_lt, guardedBits_eq hg]
  rfl

theorem guardedRender_eq (e : Encoding) : e.guardedRender f = some (e.render f) := by
  have hbytes := guardedBytes_eq hg f
  have hverilog := guardedVerilogChars_eq hg f
  have hchars : e.guardedChars f = some (e.chars f) := by
    cases e with
    | verilog => exact hverilog
    | arduino => exact congrArg (Option.map Encoding.arduinoChars) hbytes
    | python => exact congrArg (Option.map Encoding.pythonChars) hbytes
    | hex => exact congrArg (Option.map Encoding.hexChars) hbytes
    | all =>
        unfold Encoding.guardedChars Encoding.chars
        rw [hverilog, hbytes]
        rfl
  rw [Encoding.guardedRender, hchars]
  rfl

theorem readsInside : f.ReadsInside where
  bits := guardedBits_eq hg f
  bit := fun _ h => exists_guardedBit_eq hg f h
  bytes := guardedBytes_eq hg f
  diagram := guardedDiagram_eq hg f
  render := guardedRender_eq hg f

end Readers

/-- In a representable device, assembly finds every term in the pool and stays inside the planes,
whatever its outcome, and the readers of the assembled fuse map stay inside its planes and buffers.
-/
theorem accesses_inside (hg : g.Representable) (outputs : List (List Term)) :
    guardedAssemble g outputs = some (assemble g outputs) ∧
      (∀ terms ∈ outputs, ∀ t ∈ terms,
        ∃ column, (TermPool.ofOutputs outputs).column? t = some column) ∧
      ∀ f, assemble g outputs = .ok f → f.ReadsInside :=
  ⟨guardedAssemble_eq hg outputs, fun _ hterms _ ht => TermPool.exists_column?_ofOutputs hterms ht,
    fun f _ => readsInside hg f⟩

/-- Seventy columns take two words of each row. The literal with the largest code is refused before
its row is looked for, and the guards would not have let it pass. -/
theorem accesses_inside_largest_code :
    let g : Geometry := ⟨1, 70, 1⟩
    let a : Literal := (Signal.ofIndex 0).literal .complement
    let z : Literal := Literal.ofCode 18446744073709551615
    g.Representable ∧ guardedAssemble g [[⟨[z]⟩]] = some (.error (.signalOutOfRange z 1)) ∧
      ∃ f : FuseMap g, guardedAssemble g [[⟨[a]⟩]] = some (.ok f) ∧
        (∃ column, (TermPool.ofOutputs [[⟨[a]⟩]]).column? ⟨[a]⟩ = some column) ∧ f.ReadsInside ∧
        f.andPlane.guardedSet z.code 0 = none ∧ f.andPlane.guardedBit 1 70 = none ∧
        Byte.guardedSet f.bytes 216 = none := by
  intro g a z
  have hg : g.Representable := by constructor <;> decide
  have hok : assemble g [[⟨[a]⟩]] = .ok (ofPool g (.ofOutputs [[⟨[a]⟩]]) [[⟨[a]⟩]]) := by
    decide +kernel
  have herror : assemble g [[⟨[z]⟩]] = .error (.signalOutOfRange z 1) := by decide +kernel
  obtain ⟨hassemble, hfound, hreads⟩ := accesses_inside hg [[⟨[a]⟩]]
  refine ⟨hg, (accesses_inside hg [[⟨[z]⟩]]).1.trans (congrArg some herror), _,
    hassemble.trans (congrArg some hok), hfound _ (.head _) _ (.head _), hreads _ hok, ?_, ?_, ?_⟩
  · decide +kernel
  · decide +kernel
  · decide +kernel

end FuseMap

end ArrayLogic
