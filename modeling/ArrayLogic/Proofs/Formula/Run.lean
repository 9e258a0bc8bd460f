import ArrayLogic.Proofs.Formula.Spelling

/-! # Runs of the reader

Whether the reader can go on with a symbol does not depend on where the symbol stands. A text is
therefore read according to the sequence of its symbols, which leads the reader from state to state.
-/

namespace ArrayLogic.Formula

open Text (Located)

variable {scope : Scope}

/-- Where a word stands shows in reports of failures only. -/
theorem Scope.resolve_eq_ok_iff {word : String} {offset : Nat} {f : Formula} (offset' : Nat) :
    scope.resolve offset word = .ok f ↔ scope.resolve offset' word = .ok f := by
  unfold resolve
  split
  next => rfl
  next => rfl
  next digits _ =>
    cases Text.index? digits with
    | none => simp
    | some index => rfl
  next =>
    cases Name.isDefinable word.toList with
    | false => simp
    | true => rfl

namespace State

/-- The state after one more symbol, if the symbol may follow. -/
def step (scope : Scope) (state : State) (s : Symbol) : Option State :=
  (state.advance scope ⟨0, s⟩).toOption

/-- The state after several symbols, if they may follow. -/
def run (scope : Scope) (state : State) (ss : List Symbol) : Option State :=
  ss.foldlM (step scope) state

theorem run_cons (state : State) (s : Symbol) (ss : List Symbol) :
    state.run scope (s :: ss) = (state.step scope s).bind (·.run scope ss) :=
  List.foldlM_cons

theorem run_singleton (state : State) (s : Symbol) :
    state.run scope [s] = state.step scope s := by
  rw [run_cons]
  exact Option.bind_fun_some _

theorem run_append (state : State) (ss ts : List Symbol) :
    state.run scope (ss ++ ts) = (state.run scope ss).bind (·.run scope ts) :=
  List.foldlM_append

theorem advance_eq_ok_iff {state next : State} {s : Located Symbol} :
    state.advance scope s = .ok next ↔ state.step scope s.item = some next := by
  rw [step, toOption_eq_some_iff]
  rcases s with ⟨offset, item⟩
  cases state with
  | before pending outer =>
      cases item with
      | word word => simp only [advance, map_eq_ok_iff, Scope.resolve_eq_ok_iff 0]
      | and | or | xor | closing => simp [advance]
      | not | opening => rfl
  | behind operand pending outer =>
      cases item with
      | word | not | opening => simp [advance]
      | and | or | xor => rfl
      | closing => cases outer <;> simp [advance]

/-- The reader goes on as long as its symbols may follow. -/
theorem foldlM_advance_eq_ok_iff {state last : State} {located : List (Located Symbol)} :
    located.foldlM (advance scope) state = .ok last ↔
      state.run scope (located.map (·.item)) = some last := by
  induction located generalizing state with
  | nil => simp [run, pure, Except.pure]
  | cons s located ih =>
      rw [List.foldlM_cons, bind_eq_ok_iff, List.map_cons, run_cons, Option.bind_eq_some_iff]
      simp only [advance_eq_ok_iff, ih]

theorem conclude_eq_ok_iff {state : State} {offset : Nat} {f : Formula} :
    state.conclude offset = .ok f ↔
      ∃ operand p, state = .behind operand p [] ∧ p.disjoined operand = f := by
  unfold conclude
  split
  next operand p => simp
  next hother =>
    constructor
    · intro h
      simp at h
    · rintro ⟨operand, p, rfl, -⟩
      exact absurd rfl (hother operand p)

end State

/-- Symbols that lead the reader to a state are the steps of a run. -/
theorem Runs.of_run {state last : State} {ss : List Symbol} (h : state.run scope ss = some last) :
    Runs scope state ss last := by
  induction ss generalizing state with
  | nil =>
      obtain rfl := Option.some.inj h
      exact .nil
  | cons s ss ih =>
      rw [State.run_cons] at h
      obtain ⟨next, hnext, hlast⟩ := Option.bind_eq_some_iff.mp h
      exact .cons (.of_advance (toOption_eq_some_iff.mp hnext)) (ih hlast)

/-- What is read depends on where the symbols of the text lead the reader. -/
theorem Written.read_eq_ok_iff {text : String} {ss : List Symbol} (h : Written text ss)
    {f : Formula} : read scope text = .ok f ↔
      ∃ operand p, State.start.run scope ss = some (.behind operand p []) ∧
        p.disjoined operand = f := by
  obtain ⟨located, hsymbols, rfl⟩ := h.symbols
  rw [read, hsymbols]
  change located.foldlM (State.advance scope) .start >>= _ = _ ↔ _
  constructor
  · intro hread
    obtain ⟨state, hstate, hconclude⟩ := bind_eq_ok_iff.mp hread
    obtain ⟨operand, p, rfl, hf⟩ := State.conclude_eq_ok_iff.mp hconclude
    exact ⟨operand, p, State.foldlM_advance_eq_ok_iff.mp hstate, hf⟩
  · rintro ⟨operand, p, hrun, hf⟩
    apply bind_eq_ok_iff.mpr
    exact ⟨_, State.foldlM_advance_eq_ok_iff.mpr hrun, State.conclude_eq_ok_iff.mpr ⟨_, _, rfl, hf⟩⟩

end ArrayLogic.Formula
