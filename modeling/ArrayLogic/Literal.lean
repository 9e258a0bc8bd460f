import ArrayLogic.Polarity
import ArrayLogic.Signal
import ArrayLogic.Text.Layout

/-! # Literals

A literal is a signal in one polarity, written `I3` or `~I3`. Its code is the number of its row in
the AND plane: the direct signal `k` has row `2k` and its complement row `2k + 1`.
-/

namespace ArrayLogic

/-- A signal in one polarity. -/
structure Literal where
  signal : Signal
  polarity : Polarity
deriving DecidableEq, Repr

/-- The literal of a signal in the given polarity. -/
def Signal.literal (s : Signal) (p : Polarity) : Literal :=
  ⟨s, p⟩

namespace Literal

def index (l : Literal) : Nat :=
  l.signal.index

/-- The row of the literal in the AND plane. -/
def code (l : Literal) : Nat :=
  2 * l.signal.index + l.polarity.offset

/-- The literal of a row. -/
def ofCode (code : Nat) : Literal :=
  ⟨.ofIndex (code / 2), .complementIf (code % 2 == 1)⟩

theorem ofCode_code (l : Literal) : ofCode l.code = l := by
  rcases l with ⟨signal, polarity⟩
  cases polarity
  · have hdiv : 2 * signal.index / 2 = signal.index := by omega
    have hmod : 2 * signal.index % 2 = 0 := by omega
    simp only [code, ofCode, Polarity.offset, Nat.add_zero, hdiv, hmod, Signal.ofIndex_index]
    rfl
  · have hdiv : (2 * signal.index + 1) / 2 = signal.index := by omega
    have hmod : (2 * signal.index + 1) % 2 = 1 := by omega
    simp only [code, ofCode, Polarity.offset, hdiv, hmod, Signal.ofIndex_index]
    rfl

theorem code_injective {k l : Literal} (h : k.code = l.code) : k = l := by
  rw [← ofCode_code k, h, ofCode_code]

/-- The literal with its polarity inverted as `p` says. -/
def xor (l : Literal) (p : Polarity) : Literal :=
  ⟨l.signal, l.polarity.xor p⟩

def flip (l : Literal) : Literal :=
  ⟨l.signal, l.polarity.flip⟩

def flipIf (condition : Bool) (l : Literal) : Literal :=
  ⟨l.signal, l.polarity.flipIf condition⟩

def isComplement (l : Literal) : Bool :=
  l.polarity.isComplement

def eval (l : Literal) (v : Assignment) : Bool :=
  l.polarity.apply (v l.signal)

theorem eval_xor (l : Literal) (p : Polarity) (v : Assignment) :
    (l.xor p).eval v = (l.eval v ^^ p.isComplement) :=
  Polarity.apply_xor _ _ _

@[simp] theorem eval_flipIf (condition : Bool) (l : Literal) (v : Assignment) :
    (l.flipIf condition).eval v = (l.eval v ^^ condition) := by
  simp [flipIf, Polarity.flipIf, eval, Polarity.apply_xor]

/-- The written form: a `~` for the complement, then the signal. -/
def chars (l : Literal) : List Char :=
  match l.polarity with
  | .direct => l.signal.chars
  | .complement => '~' :: l.signal.chars

def text (l : Literal) : String :=
  String.ofList l.chars

/-- Reads a literal. -/
def read? : List Char → Option Literal
  | '~' :: rest => (Signal.read? rest).map (·.literal .complement)
  | cs => (Signal.read? cs).map (·.literal .direct)

theorem read?_chars (l : Literal) : read? l.chars = some l := by
  rcases l with ⟨signal, polarity⟩
  have hsignal := Signal.read?_chars signal
  cases polarity
  · simp only [chars, Signal.chars] at hsignal ⊢
    simp [read?, hsignal, Signal.literal]
  · simp [chars, read?, hsignal, Signal.literal]

/-- A word that is not the written form of a literal. -/
structure SyntaxError where
  token : String
deriving DecidableEq, Repr

def SyntaxError.message (e : SyntaxError) : String :=
  s!"invalid literal {Text.quoted e.token}, expected I<index> or ~I<index>"

/-- Reads a literal, reporting the whole word if it is none. -/
def parse (token : String) : Except SyntaxError Literal :=
  match read? token.toList with
  | some l => .ok l
  | none => .error ⟨token⟩

end Literal

end ArrayLogic
