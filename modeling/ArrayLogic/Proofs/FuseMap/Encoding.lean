import ArrayLogic.Proofs.FuseMap.Packing
import ArrayLogic.Proofs.Text.Lines
import ArrayLogic.Proofs.Text.Numeral

/-! # Reading encodings back

All texts of a fuse map carry the same bits. A binary literal shows them digit by digit; the other
texts show the bytes, and what they write around the bytes cannot be taken for one. A Python list
breaks its lines behind every eighth byte.
-/

namespace ArrayLogic

open Text (bitChar lines lines_append)

/-! ## Hexadecimal digits -/

namespace Byte

/-- The value of an upper-case hexadecimal digit. -/
def hexValue? (c : Char) : Option Nat :=
  ['0', '1', '2', '3', '4', '5', '6', '7', '8', '9', 'A', 'B', 'C', 'D', 'E', 'F'].idxOf? c

/-- The byte of two hexadecimal digits. -/
def ofHex? : List Char → Option Byte
  | [high, low] => do return .ofNat 8 (16 * (← hexValue? high) + (← hexValue? low))
  | _ => none

theorem hexValue?_hexDigit {n : Nat} (h : n < 16) : hexValue? (hexDigit n) = some n := by
  revert n
  decide

theorem isAlphanum_hexDigit {n : Nat} (h : n < 16) : (hexDigit n).isAlphanum = true := by
  revert n
  decide

theorem hexDigit_ne_x {n : Nat} (h : n < 16) : hexDigit n ≠ 'x' := by
  revert n
  decide

theorem isAlphanum_of_mem_literalChars (byte : Byte) {c : Char} (h : c ∈ byte.literalChars) :
    c.isAlphanum = true := by
  have hlt : byte.toNat < 256 := byte.isLt
  have hhigh := isAlphanum_hexDigit (n := byte.toNat / 16) (by omega)
  have hlow := isAlphanum_hexDigit (n := byte.toNat % 16) (by omega)
  simp only [literalChars, hexChars, List.cons_append, List.nil_append, List.mem_cons,
    List.not_mem_nil, or_false] at h
  rcases h with rfl | rfl | rfl | rfl
  · decide
  · decide
  · exact hhigh
  · exact hlow

theorem ofHex?_hexChars (byte : Byte) : ofHex? byte.hexChars = some byte := by
  have hlt : byte.toNat < 256 := byte.isLt
  have hhigh : byte.toNat / 16 < 16 := by omega
  have hlow : byte.toNat % 16 < 16 := by omega
  have hvalue : 16 * (byte.toNat / 16) + byte.toNat % 16 = byte.toNat := by omega
  simp [hexChars, ofHex?, hexValue?_hexDigit hhigh, hexValue?_hexDigit hlow, hvalue]

end Byte

namespace Encoding

/-- Reads bytes from two digits at a time. -/
def readHex? : List Char → Option (List Byte)
  | [] => some []
  | high :: low :: rest => do return (← Byte.ofHex? [high, low]) :: (← readHex? rest)
  | [_] => none

theorem readHex?_hexChars (bytes : List Byte) : readHex? (hexChars bytes) = some bytes := by
  induction bytes with
  | nil => rfl
  | cons byte rest ih =>
      have hbyte := byte.ofHex?_hexChars
      rw [Byte.hexChars] at hbyte
      rw [hexChars] at ih
      simp [hexChars, Byte.hexChars, readHex?, hbyte, ih]

/-! ## Bytes in a program -/

/-- The bytes whose two digits follow each `0x` in a text. There are none if something else than two
digits follows. -/
def literals? : List Char → Option (List Byte)
  | [] => some []
  | '0' :: 'x' :: digits => do return (← Byte.ofHex? (digits.take 2)) :: (← literals? digits)
  | _ :: rest => literals? rest

/-- The text consists of the literals of the bytes and of other characters. -/
inductive Carries : List Char → List Byte → Prop
  | nil : Carries [] []
  | other {c : Char} {text : List Char} {bytes : List Byte} (hc : c ≠ 'x')
      (rest : Carries text bytes) : Carries (c :: text) bytes
  | literal {text : List Char} {bytes : List Byte} (byte : Byte) (rest : Carries text bytes) :
      Carries (byte.literalChars ++ text) (byte :: bytes)

theorem literals?_cons {c : Char} {rest : List Char} (h : rest.head? ≠ some 'x') :
    literals? (c :: rest) = literals? rest := by
  rw [literals?]
  rintro digits - rfl
  exact h rfl

namespace Carries

variable {text text' : List Char} {bytes bytes' : List Byte}

theorem head?_ne (h : Carries text bytes) : text.head? ≠ some 'x' := by
  cases h with
  | nil => simp
  | other hc _ => simpa using hc
  | literal byte _ => simp [Byte.literalChars]

/-- Exactly the carried bytes are found. -/
theorem literals? (h : Carries text bytes) : literals? text = some bytes := by
  induction h with
  | nil => rfl
  | other _ rest ih => rw [literals?_cons rest.head?_ne, ih]
  | @literal text bytes byte rest ih =>
      have hlt : byte.toNat < 256 := byte.isLt
      have hlow : Byte.hexDigit (byte.toNat % 16) ≠ 'x' := Byte.hexDigit_ne_x (by omega)
      -- The digits themselves do not begin a literal.
      have hdigits : Encoding.literals? (byte.hexChars ++ text) = some bytes := by
        change Encoding.literals? (_ :: _ :: text) = _
        rw [literals?_cons (by simpa using hlow), literals?_cons rest.head?_ne, ih]
      have htake : (byte.hexChars ++ text).take 2 = byte.hexChars := rfl
      change (do return (← Byte.ofHex? ((byte.hexChars ++ text).take 2)) ::
        (← Encoding.literals? (byte.hexChars ++ text))) = _
      rw [htake, byte.ofHex?_hexChars, hdigits]
      rfl

theorem append (h : Carries text bytes) (h' : Carries text' bytes') :
    Carries (text ++ text') (bytes ++ bytes') := by
  induction h with
  | nil => exact h'
  | other hc _ ih => exact .other hc ih
  | literal byte _ ih =>
      rw [List.append_assoc]
      exact .literal byte ih

theorem of_not_mem (h : 'x' ∉ text) : Carries text [] := by
  induction text with
  | nil => exact .nil
  | cons c text ih =>
      rw [List.mem_cons, not_or] at h
      exact .other (Ne.symm h.1) (ih h.2)

theorem literalChars (byte : Byte) : Carries byte.literalChars [byte] := by
  simpa using literal byte .nil

theorem flatMap {α : Type} {f : α → List Char} {b : α → Byte} (h : ∀ a, Carries (f a) [b a])
    (xs : List α) : Carries (xs.flatMap f) (xs.map b) := by
  induction xs with
  | nil => exact .nil
  | cons a xs ih => exact (h a).append ih

theorem intercalate {separator : List Char} (h : 'x' ∉ separator) (bytes : List Byte) :
    Carries (separator.intercalate (bytes.map Byte.literalChars)) bytes := by
  induction bytes with
  | nil => exact .nil
  | cons byte rest ih =>
      cases rest with
      | nil =>
          rw [List.map_singleton, List.intercalate_singleton]
          exact literalChars byte
      | cons next rest =>
          rw [List.map_cons, List.map_cons, List.intercalate_cons_cons, ← List.map_cons]
          exact ((literalChars byte).append (of_not_mem h)).append ih

end Carries

theorem carries_arduinoChars (bytes : List Byte) : Carries (arduinoChars bytes) bytes := by
  have hopening : Carries "const uint8_t bitstream[] PROGMEM = \x7b".toList [] :=
    .of_not_mem (by decide +kernel)
  have hbytes : Carries ([',', ' '].intercalate (bytes.map Byte.literalChars)) bytes :=
    .intercalate (by decide) bytes
  have hclosing : Carries ['\x7d', ';'] [] := .of_not_mem (by decide)
  have htext := (hopening.append hbytes).append hclosing
  rw [List.nil_append, List.append_nil] at htext
  exact htext

/-! ## Lines of a Python list -/

namespace Python

/-- A byte of the list. -/
def item (byte : Byte) : List Char :=
  byte.literalChars ++ [',', ' ']

/-- The bytes of one line. -/
def row (bytes : List Byte) : List Char :=
  bytes.flatMap item

/-- The blanks in front of the bytes of every line but the first. -/
def indent : List Char :=
  List.replicate 15 ' '

/-- What follows a byte of the given number: a line break behind every eighth byte. -/
def lineBreak (k : Nat) : List Char :=
  if k % 8 = 7 then '\n' :: indent else []

/-- The bytes of all lines, numbered from the given number on. -/
def rows (start : Nat) (bytes : List Byte) : List Char :=
  (bytes.zipIdx start).flatMap fun (byte, k) => item byte ++ lineBreak k

theorem rows_append (start : Nat) (xs ys : List Byte) :
    rows start (xs ++ ys) = rows start xs ++ rows (start + xs.length) ys := by
  rw [rows, List.zipIdx_append, List.flatMap_append]
  rfl

/-- There is no line break in front of the eighth byte. -/
theorem rows_of_lt {start : Nat} {bytes : List Byte} (h : start % 8 + bytes.length < 8) :
    rows start bytes = row bytes := by
  induction bytes generalizing start with
  | nil => rfl
  | cons byte rest ih =>
      rw [List.length_cons] at h
      have hbreak : lineBreak start = [] := if_neg (by omega)
      have hrest : rows (start + 1) rest = row rest := ih (by omega)
      change item byte ++ lineBreak start ++ rows (start + 1) rest = _
      rw [hbreak, hrest, List.append_nil]
      rfl

theorem rows_of_length {start : Nat} {bytes : List Byte} (hstart : start % 8 = 0)
    (hbytes : bytes.length = 8) : rows start bytes = row bytes ++ '\n' :: indent := by
  obtain rfl | ⟨front, last, rfl⟩ := List.eq_nil_or_concat' bytes
  · simp at hbytes
  rw [List.length_append, List.length_singleton] at hbytes
  have hfront : rows start front = row front := rows_of_lt (by omega)
  have hbreak : lineBreak (start + front.length) = '\n' :: indent := if_pos (by omega)
  have hlast : rows (start + front.length) [last] = row [last] ++ '\n' :: indent := by
    simp [rows, row, hbreak]
  rw [rows_append, hfront, hlast, row, row, row, List.flatMap_append, List.append_assoc]

theorem not_mem_row {c : Char} (hc : c.isAlphanum = false) (hseparator : c ∉ [',', ' '])
    (bytes : List Byte) : c ∉ row bytes := by
  intro hmem
  obtain ⟨byte, -, hmem⟩ := List.mem_flatMap.mp hmem
  rcases List.mem_append.mp hmem with hmem | hmem
  · rw [byte.isAlphanum_of_mem_literalChars hmem] at hc
    simp at hc
  · exact hseparator hmem

/-- The line of a number. The first one begins with the opening, the others with blanks. -/
def lineAt (opening : List Char) (bytes : List Byte) (j : Nat) : List Char :=
  (if j = 0 then opening else indent) ++ row ((bytes.drop (8 * j)).take 8)

theorem lineAt_succ (opening : List Char) (bytes : List Byte) (j : Nat) :
    lineAt opening bytes (j + 1) = lineAt indent (bytes.drop 8) j := by
  have hplace : 8 * (j + 1) = 8 + 8 * j := by omega
  simp [lineAt, hplace]

/-- What stands on the last line, behind the bytes. -/
def closing : List Char :=
  List.replicate 14 ' ' ++ [']']

theorem lines_row {opening : List Char} (hfeed : '\n' ∉ opening) (hreturn : '\r' ∉ opening)
    (bytes : List Byte) (text : List Char) :
    lines (opening ++ row bytes ++ '\n' :: text) = (opening ++ row bytes) :: lines text := by
  have hfeed : '\n' ∉ opening ++ row bytes := by
    simpa [hfeed] using not_mem_row (by decide) (by decide) bytes
  have hreturn : '\r' ∉ opening ++ row bytes := by
    simpa [hreturn] using not_mem_row (by decide) (by decide) bytes
  rw [lines_append hfeed, Text.withoutReturn_of_not_mem hreturn]

theorem lines_rows {opening : List Char} (hfeed : '\n' ∉ opening) (hreturn : '\r' ∉ opening)
    {start : Nat} (hstart : start % 8 = 0) (bytes : List Byte) :
    lines (opening ++ rows start bytes ++ '\n' :: closing) =
      (List.range (bytes.length / 8 + 1)).map (lineAt opening bytes) ++ [closing] := by
  generalize hq : bytes.length / 8 = q
  -- Each full line takes eight bytes from those that are left.
  induction q generalizing opening start bytes with
  | zero =>
      have htake : bytes.take 8 = bytes := List.take_of_length_le (by omega)
      rw [rows_of_lt (by omega), lines_row hfeed hreturn]
      simp [lineAt, htake, closing, lines, Text.consLine]
  | succ q ih =>
      have hfull : (bytes.take 8).length = 8 := by
        rw [List.length_take]
        omega
      have hsplit : opening ++ rows start bytes ++ '\n' :: closing =
          opening ++ row (bytes.take 8) ++
            '\n' :: (indent ++ rows (start + 8) (bytes.drop 8) ++ '\n' :: closing) := by
        conv_lhs => rw [← List.take_append_drop 8 bytes, rows_append, hfull,
          rows_of_length hstart hfull]
        simp only [List.append_assoc, List.cons_append]
      have hlater : lines (indent ++ rows (start + 8) (bytes.drop 8) ++ '\n' :: closing) =
          (List.range (q + 1)).map (lineAt indent (bytes.drop 8)) ++ [closing] := by
        apply ih (by decide) (by decide) (by omega)
        rw [List.length_drop]
        omega
      rw [hsplit, lines_row hfeed hreturn, hlater, List.range_succ_eq_map (n := q + 1),
        List.map_cons, List.map_map, List.cons_append]
      congr 2
      exact List.map_congr_left fun j _ => (lineAt_succ opening bytes j).symm

/-- What stands on the first line, in front of the bytes. -/
def opening : List Char :=
  "    PROGMEM = [".toList

theorem chars_eq (bytes : List Byte) :
    pythonChars bytes = opening ++ rows 0 bytes ++ '\n' :: closing :=
  List.append_assoc _ _ _

theorem lines_chars (bytes : List Byte) : lines (pythonChars bytes) =
    (List.range (bytes.length / 8 + 1)).map (lineAt opening bytes) ++ [closing] := by
  rw [chars_eq]
  exact lines_rows (by decide +kernel) (by decide +kernel) rfl bytes

theorem carries_opening : Carries opening [] :=
  .of_not_mem (by decide +kernel)

theorem carries_closing : Carries closing [] :=
  .of_not_mem (by decide)

theorem carries_item (byte : Byte) : Carries (item byte) [byte] :=
  (Carries.literalChars byte).append (.of_not_mem (by decide))

theorem carries_row (bytes : List Byte) : Carries (row bytes) bytes := by
  have hbytes := Carries.flatMap carries_item bytes
  rw [List.map_id'] at hbytes
  exact hbytes

theorem carries_lineAt (bytes : List Byte) (j : Nat) :
    Carries (lineAt opening bytes j) ((bytes.drop (8 * j)).take 8) := by
  have hstart : Carries (if j = 0 then opening else indent) [] := by
    split
    · exact carries_opening
    · exact .of_not_mem (by decide)
  exact hstart.append (carries_row _)

theorem carries_rows (start : Nat) (bytes : List Byte) : Carries (rows start bytes) bytes := by
  have hbreak (k : Nat) : Carries (lineBreak k) [] := by
    unfold lineBreak
    split
    · exact .of_not_mem (by decide)
    · exact .nil
  have hbytes := Carries.flatMap
    (fun place : Byte × Nat => (carries_item place.1).append (hbreak place.2)) (bytes.zipIdx start)
  rw [List.zipIdx_map_fst] at hbytes
  exact hbytes

theorem carries_chars (bytes : List Byte) : Carries (pythonChars bytes) bytes := by
  have hend : Carries ('\n' :: closing) [] := .other (by decide) carries_closing
  have htext := (carries_opening.append (carries_rows 0 bytes)).append hend
  rw [List.nil_append, List.append_nil] at htext
  rw [chars_eq]
  exact htext

end Python

/-! ## Binary digits -/

/-- The bits whose digits follow `'b`. -/
def binary? : List Char → Option (List Bool)
  | [] => none
  | '\x27' :: 'b' :: digits =>
      some ((digits.takeWhile fun c => c == '0' || c == '1').map (· == '1'))
  | _ :: rest => binary? rest

theorem binary?_append {front : List Char} (h : '\x27' ∉ front) (rest : List Char) :
    binary? (front ++ rest) = binary? rest := by
  induction front with
  | nil => rfl
  | cons c front ih =>
      rw [List.mem_cons, not_or] at h
      rw [List.cons_append, binary?, ih h.2]
      exact fun _ hc _ => h.1 hc.symm

theorem binary?_digits (bits : List Bool) {rest : List Char}
    (h : rest.head?.any (fun c => c == '0' || c == '1') = false) :
    binary? ('\x27' :: 'b' :: (bits.map bitChar ++ rest)) = some bits := by
  have hdigits : ∀ c ∈ bits.map bitChar, (c == '0' || c == '1') = true := by
    intro c hc
    obtain ⟨bit, -, rfl⟩ := List.mem_map.mp hc
    cases bit <;> rfl
  have hrest : rest.takeWhile (fun c => c == '0' || c == '1') = [] := by
    cases rest with
    | nil => rfl
    | cons c rest => exact List.takeWhile_cons_of_neg (by simpa using h)
  have hvalue : (fun c : Char => c == '1') ∘ bitChar = id := by
    funext bit
    cases bit <;> rfl
  rw [binary?, List.takeWhile_append_of_pos hdigits, hrest, List.append_nil, List.map_map, hvalue,
    List.map_id]

/-! ## Fuse maps -/

variable {g : Geometry}

theorem binary?_verilogChars_append (f : FuseMap g) {rest : List Char}
    (h : rest.head?.any (fun c => c == '0' || c == '1') = false) :
    binary? (verilogChars f ++ rest) = some f.bits := by
  have hsize : '\x27' ∉ Nat.toDigits 10 f.size := Text.notMem_toDigits (by decide) f.size
  rw [verilogChars, List.append_assoc, List.append_assoc, binary?_append hsize]
  exact binary?_digits f.bits h

theorem binary?_verilogChars (f : FuseMap g) : binary? (verilogChars f) = some f.bits := by
  rw [← List.append_nil (verilogChars f)]
  exact binary?_verilogChars_append f rfl

/-- Reads a configuration of known length. Of several texts the first one is read. -/
def bits? (size : Nat) (text : List Char) : Encoding → Option (List Bool)
  | all => binary? text
  | verilog => binary? text
  | arduino => (literals? text).map fun bytes => (Byte.unpack bytes).take size
  | python => (literals? text).map fun bytes => (Byte.unpack bytes).take size
  | hex => (readHex? text).map fun bytes => (Byte.unpack bytes).take size

theorem bits?_chars (e : Encoding) (f : FuseMap g) : e.bits? f.size (e.chars f) = some f.bits := by
  have hbytes : (Byte.unpack f.bytes).take f.size = f.bits := f.take_unpack_bytes
  cases e with
  | all =>
      have hheading : '\x27' ∉ "Bitstream for verilog is:\n".toList := by decide +kernel
      have hnext : "\n\nBitstream for Arduino sketch\n".toList.head? = some '\n' := by
        decide +kernel
      unfold bits? chars
      rw [List.append_assoc, List.append_assoc, List.append_assoc, List.append_assoc,
        binary?_append hheading]
      apply binary?_verilogChars_append
      rw [List.head?_append, hnext]
      rfl
  | verilog => exact binary?_verilogChars f
  | arduino =>
      unfold bits? chars
      rw [(carries_arduinoChars f.bytes).literals?, Option.map_some, hbytes]
  | python =>
      unfold bits? chars
      rw [(Python.carries_chars f.bytes).literals?, Option.map_some, hbytes]
  | hex =>
      unfold bits? chars
      rw [readHex?_hexChars, Option.map_some, hbytes]

/-- Every text of bytes gives them back in order, and a Python list has eight of them on each line
but the last two. The digits of a binary literal are the bits of the fuse map. So all encodings of a
fuse map tell the same bits, given their number. -/
theorem encodings_carry_bits :
    (∀ bytes : List Byte, readHex? (hexChars bytes) = some bytes ∧
      literals? (arduinoChars bytes) = some bytes ∧ literals? (pythonChars bytes) = some bytes ∧
      (lines (pythonChars bytes)).length = bytes.length / 8 + 2 ∧
      (∀ j ≤ bytes.length / 8, ∃ line, (lines (pythonChars bytes))[j]? = some line ∧
        literals? line = some (bytes.extract (8 * j) (min (8 * j + 8) bytes.length))) ∧
      ∃ line, (lines (pythonChars bytes)).getLast? = some line ∧ literals? line = some []) ∧
    ∀ (g : Geometry) (f : FuseMap g), binary? (verilogChars f) = some f.bits ∧
      ∀ e : Encoding, e.bits? f.size (e.render f).toList = some f.bits := by
  constructor
  · intro bytes
    refine ⟨readHex?_hexChars bytes, (carries_arduinoChars bytes).literals?,
      (Python.carries_chars bytes).literals?, ?_, ?_, ?_⟩
    · simp [Python.lines_chars]
    · intro j hj
      have hj : j < bytes.length / 8 + 1 := by omega
      refine ⟨Python.lineAt Python.opening bytes j, ?_, ?_⟩
      · rw [Python.lines_chars, List.getElem?_append_left (by simpa using hj), List.getElem?_map,
          List.getElem?_range hj, Option.map_some]
      · rw [(Python.carries_lineAt bytes j).literals?, List.extract, List.take_eq_take_iff.mpr]
        rw [List.length_drop]
        omega
    · exact ⟨Python.closing, by simp [Python.lines_chars], Python.carries_closing.literals?⟩
  · intro g f
    refine ⟨binary?_verilogChars f, ?_⟩
    intro e
    rw [render, String.toList_ofList]
    exact e.bits?_chars f

/-- Eight bytes fill a line, so that the next one stays empty. Three bits take a byte of which the
hexadecimal text shows all eight. -/
theorem encodings_carry_bits_full_line :
    let bytes : List Byte := [0#8, 1#8, 2#8, 3#8, 4#8, 5#8, 6#8, 0xFF#8]
    let a : Literal := (Signal.ofIndex 0).literal .complement
    (lines (pythonChars bytes)).length = 3 ∧
      (∃ line, (lines (pythonChars bytes))[0]? = some line ∧ literals? line = some bytes) ∧
      (∃ line, (lines (pythonChars bytes))[1]? = some line ∧ literals? line = some []) ∧
      ∃ f : FuseMap ⟨1, 1, 1⟩, FuseMap.assemble _ [[⟨[a]⟩]] = .ok f ∧ hex.render f = "60" ∧
        verilog.render f = "3'b011" ∧ ∀ e : Encoding,
          e.bits? f.size (e.render f).toList = some [false, true, true] := by
  intro bytes a
  obtain ⟨hbytes, hfuse⟩ := encodings_carry_bits
  obtain ⟨-, -, -, hlength, hlines, -⟩ := hbytes bytes
  have hassemble : FuseMap.assemble ⟨1, 1, 1⟩ [[⟨[a]⟩]] =
      .ok (.ofPool ⟨1, 1, 1⟩ (.ofOutputs [[⟨[a]⟩]]) [[⟨[a]⟩]]) := by decide +kernel
  have hbits : (FuseMap.ofPool ⟨1, 1, 1⟩ (.ofOutputs [[⟨[a]⟩]]) [[⟨[a]⟩]]).bits =
      [false, true, true] := by decide +kernel
  refine ⟨hlength.trans (by decide), hlines 0 (by decide), hlines 1 (by decide), _, hassemble,
    by decide +kernel, by decide +kernel, ?_⟩
  rw [← hbits]
  exact (hfuse _ _).2

end Encoding

end ArrayLogic
