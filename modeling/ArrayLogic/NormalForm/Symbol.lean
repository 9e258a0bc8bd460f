import ArrayLogic.NormalForm
import ArrayLogic.Text.Lexeme

/-! # Symbols of a written normal form

A word is a keyword, a constant or a literal; a `~` can only start a word, so that it belongs to the
literal behind it. Keywords are recognised in any mixture of cases.
-/

namespace ArrayLogic.NormalForm

open Text (Located Mismatch WordRule lexemes)

/-- A symbol of the written form. -/
inductive Symbol where
  | and
  | or
  | literal (l : Literal)
  | constant (value : Bool)
  | opening
  | closing
  | comma
deriving DecidableEq, Repr

/-- How a message names a symbol. -/
def Symbol.description : Symbol → String
  | .and => "\"And\""
  | .or => "\"Or\""
  | .literal l => s!"literal {l.text}"
  | .constant false => "constant 0"
  | .constant true => "constant 1"
  | .opening => "\"(\""
  | .closing => "\")\""
  | .comma => "\",\""

/-- What could have stood at a place where something else was found. -/
inductive Expectation where
  | symbol
  | product
  | literal
  | sumOpening
  | sumContinuation
  | groupOpening
  | groupContinuation
  | nothing
deriving DecidableEq, Repr

def Expectation.text : Expectation → String
  | .symbol => "a keyword, literal, bracket or comma"
  | .product => "a literal or \"And\" group"
  | .literal => "a literal"
  | .sumOpening => "\"(\" after \"Or\""
  | .sumContinuation => "\",\" or \")\" closing \"Or\""
  | .groupOpening => "\"(\" after \"And\""
  | .groupContinuation => "\",\" or \")\" closing \"And\""
  | .nothing => "end of text"

/-- Why a text is not a written normal form. -/
inductive Error where
  | malformed (mismatch : Mismatch Expectation)
  | literal (cause : Literal.SyntaxError)
deriving DecidableEq, Repr

def Error.message : Error → String
  | .malformed ⟨offset, some found, expected⟩ =>
      s!"malformed DNF: expected {expected.text}, found {found} at offset {offset}"
  | .malformed ⟨offset, none, expected⟩ =>
      s!"malformed DNF: expected {expected.text}, found end of text at offset {offset}"
  | .literal cause => cause.message

/-- A word goes on with letters, digits and underscores. -/
def continuesWord (c : Char) : Bool :=
  c.isAlphanum || c == '_'

/-- A word may also start with a complement sign. -/
def startsWord (c : Char) : Bool :=
  c == '~' || continuesWord c

def wordRule : WordRule :=
  ⟨startsWord, continuesWord⟩

/-- The symbol that a word stands for. -/
def Symbol.ofWord (word : List Char) : Except Error Symbol :=
  if word.map Char.toLower = ['a', 'n', 'd'] then .ok .and
  else if word.map Char.toLower = ['o', 'r'] then .ok .or
  else if word = ['0'] then .ok (.constant false)
  else if word = ['1'] then .ok (.constant true)
  else match Literal.read? word with
    | some l => .ok (.literal l)
    | none => .error (.literal ⟨String.ofList word⟩)

/-- The symbol of a lexeme. -/
def Symbol.ofLexeme (lexeme : Located (List Char)) : Except Error (Located Symbol) :=
  match lexeme.item with
  | ['('] => .ok ⟨lexeme.offset, .opening⟩
  | [')'] => .ok ⟨lexeme.offset, .closing⟩
  | [','] => .ok ⟨lexeme.offset, .comma⟩
  | word =>
      if word.all startsWord then (Symbol.ofWord word).map (⟨lexeme.offset, ·⟩)
      else .error (.malformed ⟨lexeme.offset, some (String.ofList word), .symbol⟩)

/-- The symbols of a text, or the first lexeme that is none. -/
def symbols (text : String) : Except Error (List (Located Symbol)) :=
  (lexemes wordRule 0 text.toList).mapM Symbol.ofLexeme

end ArrayLogic.NormalForm
