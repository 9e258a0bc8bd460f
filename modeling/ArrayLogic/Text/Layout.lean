import ArrayLogic.Text.Printable

/-! # Layout of a text

A text is cut into lines, and a line into pieces around which blanks do not count. Messages show
foreign text between quotes, so that its own layout does not interfere with theirs.
-/

namespace ArrayLogic.Text

/-! ## Lines

A line ends at a line feed. One carriage return directly before the line feed belongs to the line
end; any other carriage return is an ordinary character. What follows the last line feed is a line
only if it is not empty.
-/

/-- Puts a character in front of the first line, opening one if there is none. -/
def consLine (c : Char) : List (List Char) → List (List Char)
  | [] => [[c]]
  | line :: rest => (c :: line) :: rest

/-- The lines of a text, without their ends. -/
def lines : List Char → List (List Char)
  | [] => []
  | '\n' :: rest => [] :: lines rest
  | '\r' :: '\n' :: rest => [] :: lines rest
  | c :: rest => consLine c (lines rest)

/-! ## Pieces

A character that separates divides a text into pieces, one more than it occurs. Pieces may be empty,
and the empty text is one empty piece.
-/

/-- The pieces of a text between the occurrences of a character. -/
def pieces (separator : Char) : List Char → List (List Char)
  | [] => [[]]
  | c :: rest =>
      if c = separator then [] :: pieces separator rest else consLine c (pieces separator rest)

theorem pieces_ne_nil (separator : Char) (text : List Char) : pieces separator text ≠ [] := by
  cases text with
  | nil => simp [pieces]
  | cons c rest =>
    rw [pieces]
    split
    · simp
    · cases pieces separator rest <;> simp [consLine]

/-- Nothing but the separators is lost. -/
theorem intercalate_pieces (separator : Char) (text : List Char) :
    [separator].intercalate (pieces separator text) = text := by
  induction text with
  | nil => rfl
  | cons c rest ih =>
    obtain ⟨piece, others, hpieces⟩ := List.exists_cons_of_ne_nil (pieces_ne_nil separator rest)
    rw [hpieces] at ih
    rw [pieces, hpieces]
    split
    next hc =>
      subst hc
      rw [← ih]
      rfl
    next =>
      rw [consLine, ← ih]
      cases others <;> rfl

/-! ## Blanks

Lines of a source are trimmed of every Unicode blank, while the words of a formula or of a normal
form are separated by a handful of ASCII characters only. The vertical tab and the no-break space
are therefore blank without being separators.
-/

/-- The characters with the Unicode property `White_Space`. -/
def isBlank (c : Char) : Bool :=
  let n := c.toNat
  (0x9 ≤ n && n ≤ 0xD) || n == 0x20 || n == 0x85 || n == 0xA0 || n == 0x1680 ||
    (0x2000 ≤ n && n ≤ 0x200A) || n == 0x2028 || n == 0x2029 || n == 0x202F || n == 0x205F ||
    n == 0x3000

/-- The characters that may stand between two lexemes: space, tab, line feed, form feed and
carriage return. -/
def isSeparator (c : Char) : Bool :=
  c == ' ' || c == '\t' || c == '\n' || c == '\x0c' || c == '\r'

/-- Removes the blanks at both ends. -/
def trim (cs : List Char) : List Char :=
  ((cs.dropWhile isBlank).reverse.dropWhile isBlank).reverse

/-! ## Quoted text

Quoted text has escapes for the quote, the backslash, the usual line controls and every character
that does not print as itself.
-/

/-- One character of quoted text. -/
def quoteChar (c : Char) : List Char :=
  if c == '"' then ['\\', '"']
  else if c == '\\' then ['\\', '\\']
  else if c == '\t' then ['\\', 't']
  else if c == '\r' then ['\\', 'r']
  else if c == '\n' then ['\\', 'n']
  else if c == '\x00' then ['\\', '0']
  else if isPrintable c then [c]
  else ['\\', 'u', '\x7b'] ++ Nat.toDigits 16 c.toNat ++ ['\x7d']

/-- A text between double quotes. -/
def quoted (text : String) : String :=
  String.ofList ('"' :: text.toList.flatMap quoteChar ++ ['"'])

end ArrayLogic.Text
