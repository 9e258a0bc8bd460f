import ArrayLogic.FuseMap.Diagram
import ArrayLogic.Proofs.BitMatrix
import ArrayLogic.Proofs.Device
import ArrayLogic.Proofs.FuseMap.Assembly
import ArrayLogic.Proofs.Literal
import ArrayLogic.Proofs.Text.Lines

/-! # Reading a fuse diagram

Behind names and blanks of one common width, every line of a diagram shows a row of a plane, or the
ampersands between the planes. The ampersands tell where the columns begin, so both planes can be
read back from the text.
-/

namespace ArrayLogic

open Text (bitChar lines)

theorem Text.lines_ofLines_of_not_mem {ls : List (List Char)} (hfeed : ∀ line ∈ ls, '\n' ∉ line)
    (hreturn : ∀ line ∈ ls, '\r' ∉ line) : lines (ofLines ls) = ls := by
  rw [lines_ofLines hfeed]
  exact (List.map_congr_left fun line hline => withoutReturn_of_not_mem (hreturn line hline)).trans
    (List.map_id ls)

theorem BitMatrix.getElem?_rowChars {rows columns : Nat} (m : BitMatrix rows columns) (row : Nat)
    {k : Nat} (hk : k < columns) : (m.rowChars row)[k]? = some (bitChar (m.bit row k)) := by
  rw [rowChars, BitMatrix.row, List.map_map, List.getElem?_map, List.getElem?_range hk]
  rfl

namespace FuseMap

variable {g : Geometry}

/-! ## Width of the names -/

theorem max?_eq_nameWidth (g : Geometry) :
    (0 :: (rowNames g).map List.length).max? = some (nameWidth g) :=
  rfl

theorem length_le_nameWidth {row : Nat} (h : row < g.andRows) :
    (Literal.ofCode row).chars.length ≤ nameWidth g := by
  apply (List.max?_eq_some_iff.mp (max?_eq_nameWidth g)).2
  apply List.mem_cons_of_mem
  rw [rowNames, List.map_map]
  exact List.mem_map_of_mem (List.mem_range.mpr h)

theorem exists_length_eq_nameWidth (h : 0 < g.inputs) :
    ∃ row < g.andRows, (Literal.ofCode row).chars.length = nameWidth g := by
  have hmem := (List.max?_eq_some_iff.mp (max?_eq_nameWidth g)).1
  rcases List.mem_cons.mp hmem with hzero | hmem
  · -- The first row has a name, which is not empty.
    have hfirst : (Literal.ofCode 0).chars.length ≤ nameWidth g :=
      length_le_nameWidth (Nat.mul_pos (by decide) h)
    have hlength : (Literal.ofCode 0).chars.length = 2 := by decide
    omega
  · rw [rowNames, List.map_map] at hmem
    obtain ⟨row, hrow, hlength⟩ := List.mem_map.mp hmem
    exact ⟨row, List.mem_range.mp hrow, hlength⟩

theorem nameWidth_of_inputs_eq_zero (h : g.inputs = 0) : nameWidth g = 0 := by
  rw [nameWidth, rowNames, Geometry.andRows, h]
  rfl

/-- The width is the length of the longest name of a literal of the device, and zero if the device
has no inputs. -/
structure NameWidth (g : Geometry) (width : Nat) : Prop where
  le : ∀ l : Literal, l.code < 2 * g.inputs → l.chars.length ≤ width
  attained : 0 < g.inputs → ∃ l : Literal, l.code < 2 * g.inputs ∧ l.chars.length = width
  zero : g.inputs = 0 → width = 0

theorem nameWidth_of_representable (hg : g.Representable) : NameWidth g (nameWidth g) where
  le l hl := by
    rw [← l.ofCode_code]
    exact length_le_nameWidth hl
  attained hinputs := by
    obtain ⟨row, hrow, hlength⟩ := exists_length_eq_nameWidth hinputs
    refine ⟨.ofCode row, ?_, hlength⟩
    rw [Literal.code_ofCode (Nat.lt_trans hrow hg.andRows_lt)]
    exact hrow
  zero := nameWidth_of_inputs_eq_zero

/-! ## Lines -/

/-- Whether diagrams are drawn with the character. -/
def isDrawn (c : Char) : Bool :=
  c.isDigit || ['I', 'O', '~', '-', '>', '&', ' '].contains c

theorem all_isDrawn_toDigits (n : Nat) : (Nat.toDigits 10 n).all isDrawn = true := by
  rw [List.all_eq_true]
  intro c hc
  rw [isDrawn, Nat.isDigit_of_mem_toDigits (by decide) (by decide) hc]
  rfl

theorem all_isDrawn_replicate {c : Char} (h : isDrawn c = true) (n : Nat) :
    (List.replicate n c).all isDrawn = true := by
  rw [List.all_eq_true]
  intro d hd
  rw [List.eq_of_mem_replicate hd, h]

theorem all_isDrawn_chars (l : Literal) : l.chars.all isDrawn = true := by
  rcases l with ⟨s, polarity⟩
  cases polarity with
  | direct => exact all_isDrawn_toDigits s.index
  | complement => exact all_isDrawn_toDigits s.index

theorem all_isDrawn_rowChars {rows columns : Nat} (m : BitMatrix rows columns) (row : Nat) :
    (m.rowChars row).all isDrawn = true := by
  rw [List.all_eq_true]
  intro c hc
  obtain ⟨bit, -, rfl⟩ := List.mem_map.mp hc
  cases bit <;> decide

variable (f : FuseMap g)

theorem all_isDrawn_andLine (row : Nat) : (f.andLine row).all isDrawn = true := by
  simp only [andLine, List.all_append, all_isDrawn_chars, all_isDrawn_rowChars,
    all_isDrawn_replicate (c := ' ') (by decide)]
  decide

theorem all_isDrawn_termLine (g : Geometry) : (termLine g).all isDrawn = true := by
  rw [termLine, List.all_append, indent, all_isDrawn_replicate (by decide),
    all_isDrawn_replicate (by decide)]
  rfl

theorem all_isDrawn_orLine (output : Nat) : (f.orLine output).all isDrawn = true := by
  simp only [orLine, indent, List.all_append, all_isDrawn_toDigits, all_isDrawn_rowChars,
    all_isDrawn_replicate (c := ' ') (by decide)]
  decide

theorem not_mem_diagramLines {c : Char} (hc : isDrawn c = false) :
    ∀ line ∈ f.diagramLines, c ∉ line := by
  intro line hline hmem
  have hdrawn : line.all isDrawn = true := by
    rcases List.mem_append.mp hline with hline | hline
    · obtain ⟨row, -, rfl⟩ := List.mem_map.mp hline
      exact f.all_isDrawn_andLine row
    · rcases List.mem_cons.mp hline with rfl | hline
      · exact all_isDrawn_termLine g
      · obtain ⟨output, -, rfl⟩ := List.mem_map.mp hline
        exact f.all_isDrawn_orLine output
  rw [List.all_eq_true.mp hdrawn c hmem] at hc
  simp at hc

/-- The diagram consists of the lines it is made of. -/
theorem lines_diagram : lines f.diagram.toList = f.diagramLines := by
  rw [diagram, String.toList_ofList]
  exact Text.lines_ofLines_of_not_mem (f.not_mem_diagramLines (by decide))
    (f.not_mem_diagramLines (by decide))

theorem length_diagramLines : f.diagramLines.length = 2 * g.inputs + 1 + g.outputs := by
  rw [diagramLines, List.length_append, List.length_cons, List.length_map, List.length_map,
    List.length_range, List.length_range, Geometry.andRows]
  omega

theorem getElem?_diagramLines_and {row : Nat} (h : row < g.andRows) :
    f.diagramLines[row]? = some (f.andLine row) := by
  rw [diagramLines, List.getElem?_append_left (by simpa using h), List.getElem?_map,
    List.getElem?_range h, Option.map_some]

theorem getElem?_diagramLines_behind (i : Nat) : f.diagramLines[g.andRows + i]? =
    (termLine g :: (List.range g.outputs).map f.orLine)[i]? := by
  have hlength : ((List.range g.andRows).map f.andLine).length = g.andRows := by simp
  rw [diagramLines, List.getElem?_append_right (by omega), hlength, Nat.add_sub_cancel_left]

theorem getElem?_diagramLines_term : f.diagramLines[g.andRows]? = some (termLine g) :=
  f.getElem?_diagramLines_behind 0

theorem getElem?_diagramLines_or {output : Nat} (h : output < g.outputs) :
    f.diagramLines[g.andRows + 1 + output]? = some (f.orLine output) := by
  rw [Nat.add_assoc, Nat.add_comm 1, getElem?_diagramLines_behind, List.getElem?_cons_succ,
    List.getElem?_map, List.getElem?_range h, Option.map_some]

/-! ## Columns -/

theorem getElem?_behind {front back : List Char} {n : Nat} (h : front.length = n) (k : Nat) :
    (front ++ back)[n + k]? = back[k]? := by
  rw [List.getElem?_append_right (by omega), h, Nat.add_sub_cancel_left]

theorem getElem?_andLine {row k : Nat} (hrow : row < g.andRows) (hk : k < g.terms) :
    (f.andLine row)[nameWidth g + 3 + k]? = some (bitChar (f.andPlane.bit row k)) := by
  have hname := length_le_nameWidth hrow
  have hfront : ((Literal.ofCode row).chars ++
      List.replicate (nameWidth g - (Literal.ofCode row).chars.length) ' ' ++
      ['-', '>', ' ']).length = nameWidth g + 3 := by
    rw [List.length_append, List.length_append, List.length_replicate]
    simp only [List.length_cons, List.length_nil]
    omega
  exact (getElem?_behind hfront k).trans (f.andPlane.getElem?_rowChars row hk)

theorem length_indent (g : Geometry) : (indent g).length = nameWidth g + 3 :=
  List.length_replicate

theorem getElem?_termLine {k : Nat} (hk : k < g.terms) :
    (termLine g)[nameWidth g + 3 + k]? = some '&' := by
  rw [termLine, getElem?_behind (length_indent g), List.getElem?_replicate, if_pos hk]

theorem getElem?_orLine (output : Nat) {k : Nat} (hk : k < g.terms) :
    (f.orLine output)[nameWidth g + 3 + k]? = some (bitChar (f.orPlane.bit output k)) := by
  have hlength : (f.orPlane.rowChars output).length = g.terms := by simp [BitMatrix.rowChars]
  rw [orLine, List.append_assoc, List.append_assoc, getElem?_behind (length_indent g),
    List.getElem?_append_left (by omega), f.orPlane.getElem?_rowChars output hk]

/-- The character at a place of a line. -/
def charAt? (ls : List (List Char)) (i place : Nat) : Option Char :=
  ls[i]?.bind (·[place]?)

theorem charAt?_diagramLines_and {row k : Nat} (hrow : row < g.andRows) (hk : k < g.terms) :
    charAt? f.diagramLines row (nameWidth g + 3 + k) = some (bitChar (f.andPlane.bit row k)) := by
  rw [charAt?, f.getElem?_diagramLines_and hrow]
  exact f.getElem?_andLine hrow hk

theorem charAt?_diagramLines_or {output k : Nat} (houtput : output < g.outputs)
    (hk : k < g.terms) : charAt? f.diagramLines (g.andRows + 1 + output) (nameWidth g + 3 + k) =
      some (bitChar (f.orPlane.bit output k)) := by
  rw [charAt?, f.getElem?_diagramLines_or houtput]
  exact f.getElem?_orLine output hk

/-- The lines are the diagram of a fuse map. Its columns begin three places behind the names. -/
structure Draws (ls : List (List Char)) (f : FuseMap g) (width : Nat) : Prop where
  length : ls.length = 2 * g.inputs + 1 + g.outputs
  name : ∀ r < 2 * g.inputs, ∃ l : Literal, l.code = r ∧
    ∃ line, ls[r]? = some line ∧ l.chars <+: line
  andBit : ∀ r < 2 * g.inputs, ∀ k < g.terms,
    charAt? ls r (width + 3 + k) = some (bitChar (f.andPlane.bit r k))
  ampersand : ∀ k < g.terms, charAt? ls (2 * g.inputs) (width + 3 + k) = some '&'
  orBit : ∀ o < g.outputs, ∀ k < g.terms,
    charAt? ls (2 * g.inputs + 1 + o) (width + 3 + k) = some (bitChar (f.orPlane.bit o k))

theorem draws_diagramLines (hg : g.Representable) : Draws f.diagramLines f (nameWidth g) where
  length := f.length_diagramLines
  name r hr := by
    have hcode := Literal.code_ofCode (Nat.lt_trans hr hg.andRows_lt)
    refine ⟨.ofCode r, hcode, f.andLine r, f.getElem?_diagramLines_and hr, ?_⟩
    rw [andLine, List.append_assoc, List.append_assoc]
    exact List.prefix_append _ _
  andBit r hr k hk := f.charAt?_diagramLines_and hr hk
  ampersand k hk := by
    have hline : f.diagramLines[2 * g.inputs]? = some (termLine g) := f.getElem?_diagramLines_term
    rw [charAt?, hline]
    exact getElem?_termLine hk
  orBit o ho k hk := f.charAt?_diagramLines_or ho hk

/-! ## Reading back -/

/-- The positions of a matrix. -/
def positions (rows columns : Nat) : List (Nat × Nat) :=
  (List.range rows).flatMap fun r => (List.range columns).map fun c => (r, c)

theorem mem_positions {rows columns : Nat} {position : Nat × Nat} :
    position ∈ positions rows columns ↔ position.1 < rows ∧ position.2 < columns := by
  rcases position with ⟨r, c⟩
  simp [positions]

/-- The matrix that has a bit where there is a digit one. -/
def readPlane (rows columns : Nat) (char? : Nat → Nat → Option Char) : BitMatrix rows columns :=
  (BitMatrix.zero rows columns).setAll
    ((positions rows columns).filter fun position => char? position.1 position.2 == some '1')

/-- Both planes, as a diagram shows them. The blanks in front of the ampersands tell where the
columns begin. -/
def readPlanes (g : Geometry) (text : String) :
    BitMatrix g.andRows g.terms × BitMatrix g.outputs g.terms :=
  let ls := lines text.toList
  let start := ((ls[g.andRows]?.getD []).takeWhile (· == ' ')).length
  (readPlane g.andRows g.terms fun r k => charAt? ls r (start + k),
    readPlane g.outputs g.terms fun o k => charAt? ls (g.andRows + 1 + o) (start + k))

theorem bit_readPlane {rows columns : Nat} (char? : Nat → Nat → Option Char) {r c : Nat}
    (hr : r < rows) (hc : c < columns) :
    (readPlane rows columns char?).bit r c = (char? r c == some '1') := by
  have hmem : (r, c) ∈ positions rows columns := mem_positions.mpr ⟨hr, hc⟩
  rw [readPlane, BitMatrix.bit_setAll, BitMatrix.bit_zero, Bool.or_false, Bool.eq_iff_iff,
    decide_eq_true_iff, List.mem_filter, and_iff_right hmem]
  intro position hposition
  exact mem_positions.mp (List.mem_filter.mp hposition).1

/-- Digits that show the bits of a matrix that was written from zero give the matrix back. -/
theorem readPlane_eq {rows columns : Nat} {char? : Nat → Nat → Option Char}
    {positions : List (Nat × Nat)} (h : ∀ r < rows, ∀ c < columns, char? r c =
      some (bitChar (((BitMatrix.zero rows columns).setAll positions).bit r c))) :
    readPlane rows columns char? = (BitMatrix.zero rows columns).setAll positions := by
  apply BitMatrix.setAll_eq_setAll
  intro r hr c hc
  refine (bit_readPlane char? hr hc).trans ?_
  rw [h r hr c hc]
  cases ((BitMatrix.zero rows columns).setAll positions).bit r c <;> decide

theorem length_takeWhile_termLine (g : Geometry) :
    ((termLine g).takeWhile (· == ' ')).length = nameWidth g + 3 := by
  have hindent : ∀ c ∈ indent g, (c == ' ') = true := by
    intro c hc
    rw [List.eq_of_mem_replicate hc]
    rfl
  have hampersands : (List.replicate g.terms '&').takeWhile (· == ' ') = [] := by
    cases g.terms with
    | zero => rfl
    | succ n => rfl
  rw [termLine, List.takeWhile_append_of_pos hindent, hampersands, List.append_nil, length_indent]

theorem readPlanes_diagram {outputs : List (List Term)} {f : FuseMap g}
    (h : assemble g outputs = .ok f) : readPlanes g f.diagram = (f.andPlane, f.orPlane) := by
  obtain ⟨-, -, rfl⟩ := assemble_eq_ok_iff.mp h
  let f := ofPool g (.ofOutputs outputs) outputs
  unfold readPlanes
  simp only [lines_diagram, getElem?_diagramLines_term, Option.getD_some, length_takeWhile_termLine]
  refine congrArg₂ Prod.mk (readPlane_eq ?_) (readPlane_eq ?_)
  · intro r hr k hk
    exact f.charAt?_diagramLines_and hr hk
  · intro o ho k hk
    exact f.charAt?_diagramLines_or ho hk

/-- A diagram has a line for each row of the planes and one between them. All columns are aligned
behind the longest name, each row of the AND plane begins with the name of its literal, and both
planes can be read back from the text. -/
theorem diagram_aligned_and_faithful (hg : g.Representable) {outputs : List (List Term)}
    {f : FuseMap g} (h : assemble g outputs = .ok f) :
    (∃ width, NameWidth g width ∧ Draws (lines f.diagram.toList) f width) ∧
      readPlanes g f.diagram = (f.andPlane, f.orPlane) := by
  refine ⟨⟨nameWidth g, nameWidth_of_representable hg, ?_⟩, readPlanes_diagram h⟩
  rw [lines_diagram]
  exact f.draws_diagramLines hg

/-- The names of eleven inputs have three different lengths. -/
theorem diagram_aligned_and_faithful_eleven_inputs :
    let a : Literal := (Signal.ofIndex 0).literal .direct
    let b : Literal := (Signal.ofIndex 10).literal .complement
    let g : Geometry := ⟨11, 3, 2⟩
    let outputs : List (List Term) := [[⟨[a, b]⟩], [⟨[b]⟩, ⟨[a, b]⟩]]
    g.Representable ∧ ∃ f : FuseMap g, assemble g outputs = .ok f ∧
      (lines f.diagram.toList)[0]? = some "I0  -> 100".toList ∧
      (lines f.diagram.toList)[21]? = some "~I10-> 110".toList ∧
      (lines f.diagram.toList)[22]? = some "       &&&".toList ∧
      (lines f.diagram.toList)[24]? = some "       110 -> O1".toList ∧
      (∃ width, NameWidth g width ∧ Draws (lines f.diagram.toList) f width) ∧
      readPlanes g f.diagram = (f.andPlane, f.orPlane) := by
  intro a b g outputs
  have hg : g.Representable := ⟨by decide, by decide, by decide, by decide⟩
  have h : assemble g outputs = .ok (ofPool g (.ofOutputs outputs) outputs) := by decide +kernel
  have haligned := diagram_aligned_and_faithful hg h
  rw [lines_diagram] at haligned
  refine ⟨hg, _, h, ?_⟩
  rw [lines_diagram]
  exact ⟨by decide +kernel, by decide +kernel, by decide +kernel, by decide +kernel, haligned⟩

end FuseMap

end ArrayLogic
