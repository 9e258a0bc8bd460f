import ArrayLogic.Proofs.Formula.Spelling

/-! # What a reading depends on

Of all the names in a scope, reading a text looks up the words of the text and no others. Scopes
that agree on these words give the same result, also if the text cannot be read.
-/

namespace ArrayLogic.Formula

open Text (Located)

/-- The word is one of the symbols that the text writes. -/
def Uses (text word : String) : Prop :=
  ∃ ss, Written text ss ∧ Symbol.word word ∈ ss

theorem uses_iff {text word : String} : Uses text word ↔
    ∃ located, symbols text = .ok located ∧ Symbol.word word ∈ located.map (·.item) := by
  constructor
  · rintro ⟨ss, hwritten, hword⟩
    obtain ⟨located, hsymbols, rfl⟩ := hwritten.symbols
    exact ⟨located, hsymbols, hword⟩
  · rintro ⟨located, hsymbols, hword⟩
    exact ⟨_, written_of_symbols hsymbols, hword⟩

instance (text word : String) : Decidable (Uses text word) :=
  decidable_of_iff
    ((symbols text).toOption.any fun located => located.any (·.item == .word word)) <| by
      rw [uses_iff]
      cases symbols text with
      | error e => simp [Except.toOption]
      | ok located => simp [Except.toOption]

variable {scope scope' : Scope}

theorem Scope.resolve_congr {word : String} (hinputs : scope.inputs = scope'.inputs)
    (hlookup : scope.lookup word = scope'.lookup word) (offset : Nat) :
    scope.resolve offset word = scope'.resolve offset word := by
  unfold resolve
  rw [hinputs, hlookup]

theorem State.advance_congr {s : Located Symbol}
    (h : ∀ word, s.item = .word word →
      scope.resolve s.offset word = scope'.resolve s.offset word) (state : State) :
    state.advance scope s = state.advance scope' s := by
  rcases s with ⟨offset, item⟩
  cases state with
  | before pending outer =>
      cases item with
      | word word => simp only [advance, h word rfl]
      | not | and | or | xor | opening | closing => rfl
  | behind operand pending outer => cases outer <;> cases item <;> rfl

theorem State.foldlM_advance_congr {located : List (Located Symbol)}
    (h : ∀ s ∈ located, ∀ word, s.item = .word word →
      scope.resolve s.offset word = scope'.resolve s.offset word) (state : State) :
    located.foldlM (State.advance scope) state = located.foldlM (State.advance scope') state := by
  induction located generalizing state with
  | nil => rfl
  | cons s located ih =>
      obtain ⟨hs, hlocated⟩ := List.forall_mem_cons.mp h
      rw [List.foldlM_cons, List.foldlM_cons, state.advance_congr hs]
      exact congrArg _ (funext fun next => ih hlocated next)

/-- Reading depends on what the words of the text are bound to. -/
theorem read_congr {text : String} (hinputs : scope.inputs = scope'.inputs)
    (hlookup : ∀ word, Uses text word → scope.lookup word = scope'.lookup word) :
    read scope text = read scope' text := by
  unfold read
  cases hsymbols : symbols text with
  | error e => rfl
  | ok located =>
      have hresolve : ∀ s ∈ located, ∀ word, s.item = .word word →
          scope.resolve s.offset word = scope'.resolve s.offset word := by
        intro s hs word hword
        have huses : Uses text word :=
          uses_iff.mpr ⟨located, hsymbols, List.mem_map.mpr ⟨s, hs, hword⟩⟩
        exact Scope.resolve_congr hinputs (hlookup word huses) s.offset
      simp only [bind, Except.bind, State.foldlM_advance_congr hresolve]

end ArrayLogic.Formula
