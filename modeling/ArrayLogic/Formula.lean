import ArrayLogic.Literal

/-! # Formulas

A formula is a Boolean expression over the inputs of a device. It holds no names: a reference to an
earlier definition is replaced by the formula it stands for while the text is read.
-/

namespace ArrayLogic

/-- A Boolean expression over input literals. -/
inductive Formula where
  | const (value : Bool)
  | lit (l : Literal)
  | not (f : Formula)
  | and (f g : Formula)
  | or (f g : Formula)
  | xor (f g : Formula)
deriving DecidableEq, Repr

namespace Formula

def eval (v : Assignment) : Formula → Bool
  | const value => value
  | lit l => l.eval v
  | not f => !f.eval v
  | and f g => f.eval v && g.eval v
  | or f g => f.eval v || g.eval v
  | xor f g => f.eval v ^^ g.eval v

/-- Adds the signals of the formula to a list in strictly increasing order of indices. -/
def addSignals : Formula → List Signal → List Signal
  | const _, signals => signals
  | lit l, signals => l.signal.insertSorted signals
  | not f, signals => f.addSignals signals
  | and f g, signals => g.addSignals (f.addSignals signals)
  | or f g, signals => g.addSignals (f.addSignals signals)
  | xor f g, signals => g.addSignals (f.addSignals signals)

/-- The signals that occur in the formula, in order of their indices. -/
def support (f : Formula) : List Signal :=
  f.addSignals []

/-- The written form of the formula, followed by `rest`. Every binary operation stands in brackets,
so the written form does not depend on precedence. -/
def render : Formula → List Char → List Char
  | const false, rest => '0' :: rest
  | const true, rest => '1' :: rest
  | lit l, rest => l.chars ++ rest
  | not f, rest => '~' :: f.render rest
  | and f g, rest => '(' :: f.render (' ' :: '&' :: ' ' :: g.render (')' :: rest))
  | or f g, rest => '(' :: f.render (' ' :: '|' :: ' ' :: g.render (')' :: rest))
  | xor f g, rest => '(' :: f.render (' ' :: '^' :: ' ' :: g.render (')' :: rest))

def text (f : Formula) : String :=
  String.ofList (f.render [])

end Formula

end ArrayLogic
