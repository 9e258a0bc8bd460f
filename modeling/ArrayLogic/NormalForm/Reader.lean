import ArrayLogic.NormalForm.Symbol

/-! # Reading normal forms

The reader goes through the symbols one by one. Its state says what has been read and so what may
follow; a symbol without a step from the current state is the first one that no continuation of the
text could repair.
-/

namespace ArrayLogic.NormalForm

open Text (Located)

/-- Where a product stands: on its own, or in a sum after the given products, last first. -/
abbrev Place := Option (List Product)

/-- What has been read so far. Lists of earlier parts have their last part first. -/
inductive State where
  | start
  | sumOpening
  | product (earlier : List Product)
  | groupOpening (place : Place)
  | literal (place : Place) (earlier : List Literal)
  | groupContinuation (place : Place) (literals : List Literal)
  | sumContinuation (products : List Product)
  | finished (form : NormalForm)
deriving DecidableEq, Repr

namespace State

/-- The state after a complete product. -/
def afterProduct (p : Product) : Place → State
  | none => finished (.product p)
  | some earlier => sumContinuation (p :: earlier)

/-- The state after one more symbol, if the symbol may follow. -/
def step : State → Symbol → Option State
  | start, .constant value => some (finished (.constant value))
  | start, .or => some sumOpening
  | start, .literal l => some (afterProduct (.literal l) none)
  | start, .and => some (groupOpening none)
  | sumOpening, .opening => some (product [])
  | product earlier, .literal l => some (afterProduct (.literal l) (some earlier))
  | product earlier, .and => some (groupOpening (some earlier))
  | groupOpening place, .opening => some (literal place [])
  | literal place earlier, .literal l => some (groupContinuation place (l :: earlier))
  | groupContinuation place literals, .comma => some (literal place literals)
  | groupContinuation place literals, .closing =>
      some (afterProduct (.group literals.reverse) place)
  | sumContinuation products, .comma => some (product products)
  | sumContinuation products, .closing => some (finished (.sum products.reverse))
  | _, _ => none

/-- What may follow in a state. -/
def expectation : State → Expectation
  | start => .product
  | sumOpening => .sumOpening
  | product _ => .product
  | groupOpening _ => .groupOpening
  | literal _ _ => .literal
  | groupContinuation _ _ => .groupContinuation
  | sumContinuation _ => .sumContinuation
  | finished _ => .nothing

/-- Goes on with a symbol or reports it. -/
def advance (state : State) (symbol : Located Symbol) : Except Error State :=
  match state.step symbol.item with
  | some next => .ok next
  | none => .error (.malformed
      ⟨symbol.offset, some symbol.item.description, state.expectation⟩)

/-- The form that has been read when the text ends at the given offset. -/
def conclude (state : State) (offset : Nat) : Except Error NormalForm :=
  match state with
  | finished form => .ok form
  | _ => .error (.malformed ⟨offset, none, state.expectation⟩)

end State

/-- Reads a written normal form. -/
def read (text : String) : Except Error NormalForm := do
  let state ← (← symbols text).foldlM State.advance .start
  state.conclude text.utf8ByteSize

/-- The product terms of a written normal form. -/
def readTerms (text : String) : Except Error (List Term) :=
  (read text).map terms

end ArrayLogic.NormalForm
