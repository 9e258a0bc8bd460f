import ArrayLogic.Formula
import ArrayLogic.Text.Lexeme

/-! # Symbols of a written formula

Words are runs of letters and digits; every operator and bracket is a symbol of its own.
-/

namespace ArrayLogic.Formula

open Text (Located Mismatch WordRule lexemes quoted)

/-- A symbol of the written form. -/
inductive Symbol where
  | word (text : String)
  | not
  | and
  | or
  | xor
  | opening
  | closing
deriving DecidableEq, Repr

def Symbol.text : Symbol → String
  | .word text => text
  | .not => "~"
  | .and => "&"
  | .or => "|"
  | .xor => "^"
  | .opening => "("
  | .closing => ")"

/-- What could have stood at a place where something else was found. -/
inductive Expectation where
  | symbol
  | operand
  | closing
  | operator
deriving DecidableEq, Repr

def Expectation.text : Expectation → String
  | .symbol => "an operator, name or bracket"
  | .operand => "a name, constant or \"(\""
  | .closing => "\")\""
  | .operator => "an operator or end of expression"

/-- Why a text cannot be read as a formula. -/
inductive Error where
  | unexpected (mismatch : Mismatch Expectation)
  | unknownInput (index inputs : Nat)
  | undefinedName (name : String)
deriving DecidableEq, Repr

def Error.message : Error → String
  | .unexpected ⟨offset, some found, expected⟩ =>
      s!"expected {expected.text}, found {quoted found} at offset {offset}"
  | .unexpected ⟨offset, none, expected⟩ =>
      s!"expected {expected.text}, found end of expression at offset {offset}"
  | .unknownInput index inputs =>
      s!"input I{index} does not exist, the device has {inputs} inputs"
  | .undefinedName name => s!"{name} is used before it is defined"

def wordRule : WordRule :=
  ⟨Char.isAlphanum, Char.isAlphanum⟩

/-- The symbol of a lexeme. -/
def Symbol.ofLexeme (lexeme : Located (List Char)) : Except Error (Located Symbol) :=
  match lexeme.item with
  | ['~'] => .ok ⟨lexeme.offset, .not⟩
  | ['&'] => .ok ⟨lexeme.offset, .and⟩
  | ['|'] => .ok ⟨lexeme.offset, .or⟩
  | ['^'] => .ok ⟨lexeme.offset, .xor⟩
  | ['('] => .ok ⟨lexeme.offset, .opening⟩
  | [')'] => .ok ⟨lexeme.offset, .closing⟩
  | chars =>
      if chars.all Char.isAlphanum then .ok ⟨lexeme.offset, .word (String.ofList chars)⟩
      else .error (.unexpected ⟨lexeme.offset, some (String.ofList chars), .symbol⟩)

/-- The symbols of a text, or the first lexeme that is none. -/
def symbols (text : String) : Except Error (List (Located Symbol)) :=
  (lexemes wordRule 0 text.toList).mapM Symbol.ofLexeme

end ArrayLogic.Formula
