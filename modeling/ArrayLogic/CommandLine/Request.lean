import ArrayLogic.FuseMap.Encoding

/-! # Requests on the command line

The program compiles one file of equations. Arguments are read from left to right, and the first
fault or a request for the version settles the matter.
-/

namespace ArrayLogic.CommandLine

open Text (number?)

/-- What a run is asked to do. -/
structure Options where
  file : String
  debug : Nat
  encoding : Encoding
  diagram : Bool
deriving DecidableEq, Repr

/-- A well-formed command line. -/
inductive Request where
  | version
  | compile (options : Options)
deriving DecidableEq, Repr

/-- What is wrong with a command line. -/
inductive UsageError where
  | missingFile
  | emptyFile
  | extraFile (argument : String)
  | unknownOption (argument : String)
  | unexpectedValue (argument : String)
  | missingValue (option : String)
  | invalidValue (option value : String)
  | repeated (option : String)
deriving DecidableEq, Repr

def UsageError.message : UsageError → String
  | .missingFile => "no file given"
  | .emptyFile => "the file name is empty"
  | .extraFile argument => s!"unexpected argument {argument}"
  | .unknownOption argument => s!"unknown option {argument}"
  | .unexpectedValue argument => s!"unexpected value in {argument}"
  | .missingValue option => s!"{option} needs a value"
  | .invalidValue option value => s!"invalid value {value} for {option}"
  | .repeated option => s!"{option} is given twice"

/-- The options that take a value. -/
inductive ValueOption where
  | debug
  | format
deriving DecidableEq, Repr

def ValueOption.name : ValueOption → String
  | .debug => "--debug"
  | .format => "--format"

/-- What has been given so far. -/
structure Draft where
  file : Option String
  debug : Option Nat
  encoding : Option Encoding
  diagram : Bool

/-- The debug setting of a value: a number from 0 to 3, possibly with a sign. -/
def debugSetting? (value : List Char) : Option Nat :=
  let setting := match value with
    | '+' :: digits => number? digits
    | '-' :: digits => (number? digits).filter (· == 0)
    | digits => number? digits
  setting.filter (· ≤ 3)

namespace Draft

def empty : Draft :=
  ⟨none, none, none, false⟩

def addFile (draft : Draft) (file : String) : Except UsageError Draft :=
  if file.isEmpty then .error .emptyFile
  else if draft.file.isSome then .error (.extraFile file)
  else .ok { draft with file := some file }

def addDiagram (draft : Draft) : Except UsageError Draft :=
  if draft.diagram then .error (.repeated "--diagram") else .ok { draft with diagram := true }

def addValue (draft : Draft) (option : ValueOption) (value : List Char) :
    Except UsageError Draft :=
  let invalid := .error (.invalidValue option.name (String.ofList value))
  match option with
  | .debug =>
      if draft.debug.isSome then .error (.repeated option.name)
      else match debugSetting? value with
        | some setting => .ok { draft with debug := some setting }
        | none => invalid
  | .format =>
      if draft.encoding.isSome then .error (.repeated option.name)
      else match Encoding.ofName? (String.ofList value) with
        | some encoding => .ok { draft with encoding := some encoding }
        | none => invalid

/-- The request of a complete command line. -/
def request (draft : Draft) : Except UsageError Request :=
  match draft.file with
  | some file => .ok (.compile ⟨file, draft.debug.getD 0, draft.encoding.getD .all, draft.diagram⟩)
  | none => .error .missingFile

end Draft

/-- How the next argument is understood. -/
inductive Mode where
  /-- As an option or a file. -/
  | any
  /-- As the value of an option. -/
  | value (option : ValueOption)
  /-- As a file. -/
  | files

/-- What an argument does. -/
inductive Action where
  | version
  | endOptions
  | file
  | diagram
  | awaitValue (option : ValueOption)
  | setValue (option : ValueOption) (value : List Char)
  | fault (error : UsageError)

/-- A value attached to a short option may be set off by an equals sign. -/
def attachedValue : List Char → List Char
  | '=' :: value => value
  | value => value

/-- The option that takes a value under a long name. -/
def longValueOption? (name : List Char) : Option ValueOption :=
  if name = "debug".toList then some .debug
  else if name = "format".toList then some .format
  else none

/-- What an argument after two dashes does. -/
def longAction (argument : String) (body : List Char) : Action :=
  let name := body.takeWhile (· != '=')
  let value := (body.dropWhile (· != '=')).drop 1
  let hasValue := body.contains '='
  match longValueOption? name with
  | some option => if hasValue then .setValue option value else .awaitValue option
  | none =>
      if name = "diagram".toList then
        if hasValue then .fault (.unexpectedValue argument) else .diagram
      else if name = "version".toList then
        if hasValue then .fault (.unexpectedValue argument) else .version
      else .fault (.unknownOption argument)

/-- What an argument after one dash does. -/
def shortAction (argument : String) : List Char → Action
  | ['d'] => .awaitValue .debug
  | 'd' :: rest => .setValue .debug (attachedValue rest)
  | ['f'] => .awaitValue .format
  | 'f' :: rest => .setValue .format (attachedValue rest)
  | 'V' :: _ => .version
  | _ => .fault (.unknownOption argument)

/-- What an argument does where options are allowed. A lone dash is a file. -/
def action (argument : String) : Action :=
  match argument.toList with
  | ['-', '-'] => .endOptions
  | '-' :: '-' :: body => longAction argument body
  | ['-'] => .file
  | '-' :: body => shortAction argument body
  | _ => .file

/-- Whether an argument looks like an option and so cannot be a value. -/
def looksLikeOption (argument : String) : Bool :=
  match argument.toList with
  | '-' :: _ :: _ => true
  | _ => false

/-- Reads the remaining arguments. -/
def readFrom (draft : Draft) (mode : Mode) : List String → Except UsageError Request
  | [] =>
      match mode with
      | .value option => .error (.missingValue option.name)
      | _ => draft.request
  | argument :: rest =>
      match mode with
      | .files => do readFrom (← draft.addFile argument) .files rest
      | .value option =>
          if looksLikeOption argument then .error (.missingValue option.name)
          else do readFrom (← draft.addValue option argument.toList) .any rest
      | .any =>
          match action argument with
          | .version => .ok .version
          | .endOptions => readFrom draft .files rest
          | .file => do readFrom (← draft.addFile argument) .any rest
          | .diagram => do readFrom (← draft.addDiagram) .any rest
          | .awaitValue option => readFrom draft (.value option) rest
          | .setValue option value => do readFrom (← draft.addValue option value) .any rest
          | .fault error => .error error

/-- Reads a command line. -/
def read (arguments : List String) : Except UsageError Request :=
  readFrom .empty .any arguments

end ArrayLogic.CommandLine
