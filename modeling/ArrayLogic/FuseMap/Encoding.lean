import ArrayLogic.FuseMap

/-! # Encodings of a fuse map

The flat configuration is packed into bytes, most significant bit first, and written for the tools
that program a device: as a sized binary literal for Verilog, as arrays of bytes for an Arduino
sketch or a Python script, or as plain hexadecimal digits.
-/

namespace ArrayLogic

/-- Eight bits of a packed configuration. -/
abbrev Byte := BitVec 8

namespace Byte

/-- The byte of eight bits, most significant first. -/
def ofBits (bit : Nat → Bool) : Byte :=
  (List.range 8).foldl (fun byte j => byte ||| if bit j then 0x80#8 >>> j else 0#8) 0#8

theorem getMsbD_mask (j : Nat) {i : Nat} (h : i < 8) :
    (0x80#8 >>> j).getMsbD i = decide (j = i) := by
  have hhigh : ∀ k < 8, (0x80#8).getMsbD k = decide (k = 0) := by decide
  rw [BitVec.getMsbD_ushiftRight, hhigh (i - j) (by omega)]
  by_cases hlt : i < j
  · have hne : j ≠ i := by omega
    simp [hlt, hne]
  · have hiff : i - j = 0 ↔ j = i := by omega
    simp [h, hlt, hiff]

theorem getMsbD_ofBits (bit : Nat → Bool) {i : Nat} (h : i < 8) :
    (ofBits bit).getMsbD i = bit i := by
  have hmask (j : Nat) : (if bit j then 0x80#8 >>> j else 0#8).getMsbD i =
      (decide (j = i) && bit i) := by
    by_cases heq : j = i
    · subst heq
      cases hbit : bit j <;> simp [getMsbD_mask j h]
    · cases hbit : bit j <;> simp [getMsbD_mask j h, heq]
  have hfold (js : List Nat) (byte : Byte) :
      (js.foldl (fun byte j => byte ||| if bit j then 0x80#8 >>> j else 0#8) byte).getMsbD i =
        (byte.getMsbD i || (js.contains i && bit i)) := by
    induction js generalizing byte with
    | nil => simp
    | cons j rest ih =>
      rw [List.foldl_cons, ih, BitVec.getMsbD_or, hmask, List.contains_cons]
      by_cases heq : j = i
      · cases bit i <;> simp [heq]
      · have hne : (i == j) = false := by simpa using fun h => heq h.symm
        simp [heq, hne]
  simp [ofBits, hfold, h]

/-- Packs bits into bytes, most significant bit first. The last byte is filled up with zeros. -/
def pack (bits : List Bool) : List Byte :=
  let places := bits.toArray
  (List.range ((bits.length + 7) / 8)).map fun k =>
    ofBits fun j => places.getD (8 * k + j) false

@[simp] theorem length_pack (bits : List Bool) : (pack bits).length = (bits.length + 7) / 8 := by
  simp [pack]

/-- The upper-case hexadecimal digit of a number below sixteen. -/
def hexDigit (n : Nat) : Char :=
  (Nat.digitChar n).toUpper

/-- The two hexadecimal digits of a byte. -/
def hexChars (byte : Byte) : List Char :=
  [hexDigit (byte.toNat / 16), hexDigit (byte.toNat % 16)]

/-- A byte as it is written in a program. -/
def literalChars (byte : Byte) : List Char :=
  ['0', 'x'] ++ byte.hexChars

end Byte

/-- The packed configuration. -/
def FuseMap.bytes {g : Geometry} (f : FuseMap g) : List Byte :=
  Byte.pack f.bits

/-- The ways of writing a fuse map. -/
inductive Encoding where
  /-- The literal and both arrays, each under a heading. -/
  | all
  | verilog
  | arduino
  | python
  | hex
deriving DecidableEq, Repr, Inhabited

namespace Encoding

variable {g : Geometry}

/-- The encoding of a name; names are lower case. -/
def ofName? : String → Option Encoding
  | "all" => some all
  | "verilog" => some verilog
  | "arduino" => some arduino
  | "python" => some python
  | "hex" => some hex
  | _ => none

/-- The configuration as a sized binary literal of Verilog, bit 0 first. -/
def verilogChars (f : FuseMap g) : List Char :=
  Nat.toDigits 10 f.size ++ ['\x27', 'b'] ++ f.bitChars

/-- The bytes as hexadecimal digits without separators. -/
def hexChars (bytes : List Byte) : List Char :=
  bytes.flatMap Byte.hexChars

/-- The bytes as an array in the program memory of an Arduino sketch. -/
def arduinoChars (bytes : List Byte) : List Char :=
  "const uint8_t bitstream[] PROGMEM = \x7b".toList ++
    [',', ' '].intercalate (bytes.map Byte.literalChars) ++ ['\x7d', ';']

/-- The bytes as a Python list. Eight bytes stand on a line, and a full line is always followed by
another one, even if no bytes are left for it. -/
def pythonChars (bytes : List Byte) : List Char :=
  "    PROGMEM = [".toList ++
    bytes.zipIdx.flatMap (fun (byte, k) => byte.literalChars ++ [',', ' '] ++
      if k % 8 = 7 then '\n' :: List.replicate 15 ' ' else []) ++
    '\n' :: List.replicate 14 ' ' ++ [']']

/-- A fuse map in an encoding. -/
def chars (f : FuseMap g) : Encoding → List Char
  | verilog => verilogChars f
  | arduino => arduinoChars f.bytes
  | python => pythonChars f.bytes
  | hex => hexChars f.bytes
  | all =>
      "Bitstream for verilog is:\n".toList ++ verilogChars f ++
        "\n\nBitstream for Arduino sketch\n".toList ++ arduinoChars f.bytes ++
        "\n\nPython array:\n".toList ++ pythonChars f.bytes

def render (e : Encoding) (f : FuseMap g) : String :=
  String.ofList (e.chars f)

end Encoding

end ArrayLogic
