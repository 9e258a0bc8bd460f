import ArrayLogic.Proofs.Definitions.Execution

/-! # Attempts to define

Equations can be tried one after the other, and some of them may fail. Whatever is tried, the bound
names stay those of outputs and temporaries, and the bound formulas stay formulas over the inputs of
the device. A failure leaves no trace, and a success is confined to one name. Defining equations in
order up to the first that fails therefore ends where the equations before it lead.
-/

namespace ArrayLogic.Definitions

open Text (indexBound)

/-! ## Steps -/

/-- The definitions after an equation has been tried. -/
def attempt (d : Definitions) (e : Equation) : Definitions :=
  (d.defineAll [e]).1

theorem attempt_of_define {d next : Definitions} {e : Equation} (h : d.define e = .ok next) :
    d.attempt e = next := by
  simp [attempt, defineAll, h]

theorem attempt_of_error {d : Definitions} {e : Equation} {error : EquationError}
    (h : d.define e = .error error) : d.attempt e = d := by
  simp [attempt, defineAll, h]

/-- A failure is reported with the name and the line of its equation. -/
theorem define_eq_error {d : Definitions} {e : Equation} {error : EquationError}
    (h : d.define e = .error error) : error.name = e.name ∧ error.line = e.line := by
  unfold define at h
  split at h
  next => simp at h
  next =>
    obtain rfl := Except.error.inj h
    exact ⟨rfl, rfl⟩

/-- The bound names are those of outputs and temporaries, and the bound formulas consist of direct
literals of the inputs. -/
structure WellFormed (d : Definitions) : Prop where
  name : ∀ name f, d.get? name = some f →
    ∃ k < indexBound, name = Name.output k ∨ name = Name.temporary k
  all : d.All fun l => l.polarity = .direct ∧ l.index < d.inputs

theorem wellFormed_empty (inputs : Nat) : (empty inputs).WellFormed := by
  constructor
  · intro name f hf
    simp [get?, empty] at hf
  · intro name f hf
    simp [get?, empty] at hf

theorem WellFormed.define {d next : Definitions} (h : d.WellFormed) {e : Equation}
    (hnext : d.define e = .ok next) : next.WellFormed := by
  constructor
  · intro name g hg
    obtain ⟨f, hf, rfl⟩ := define_eq_ok_iff.mp hnext
    rw [get?_insert] at hg
    split at hg
    next hname =>
      obtain ⟨k, hk, hchars⟩ := Name.isDefinable_iff.mp (formulaOf_eq_ok_iff.mp hf).1
      rw [hname]
      exact ⟨k, hk, hchars.imp String.toList_inj.mp String.toList_inj.mp⟩
    next => exact h.name name g hg
  · rw [inputs_of_define hnext]
    refine h.all.define ?_ hnext
    intro k hk
    exact ⟨rfl, Nat.lt_of_le_of_lt (Nat.mod_le k _) hk⟩

/-! ## Runs -/

/-- What every definition preserves holds after any attempts. -/
theorem attempts_induction {P : Definitions → Prop}
    (step : ∀ d next e, d.define e = .ok next → P d → P next) {d : Definitions} (h : P d)
    (es : List Equation) : P (es.foldl attempt d) := by
  induction es generalizing d with
  | nil => exact h
  | cons e es ih => exact ih (defineAll_induction step h [e])

theorem wellFormed_attempts (inputs : Nat) (es : List Equation) :
    (es.foldl attempt (empty inputs)).WellFormed :=
  attempts_induction (fun _ _ _ hnext h => h.define hnext) (wellFormed_empty inputs) es

theorem inputs_attempts (inputs : Nat) (es : List Equation) :
    (es.foldl attempt (empty inputs)).inputs = inputs := by
  refine attempts_induction (P := fun d => d.inputs = inputs) ?_ rfl es
  exact fun d next e hnext h => (inputs_of_define hnext).trans h

/-- The equations before the first that fails are defined. -/
theorem exists_of_defineAll_eq_some {d last : Definitions} {es : List Equation}
    {error : EquationError} (h : d.defineAll es = (last, some error)) :
    ∃ front e back, es = front ++ e :: back ∧ d.defineAll front = (last, none) ∧
      last.define e = .error error := by
  induction es generalizing d with
  | nil => simp [defineAll] at h
  | cons e es ih =>
      rw [defineAll] at h
      split at h
      next next hnext =>
        obtain ⟨front, failed, back, rfl, hfront, hfailed⟩ := ih h
        refine ⟨e :: front, failed, back, rfl, ?_, hfailed⟩
        rw [defineAll, hnext]
        exact hfront
      next cause hcause =>
        -- Nothing has been defined yet, and the equations behind this one are not tried.
        obtain ⟨rfl, hsome⟩ := Prod.mk.inj h
        obtain rfl := Option.some.inj hsome
        exact ⟨[], e, es, rfl, rfl, hcause⟩

/-- After any attempts, every bound name is that of an output or a temporary, and every bound
formula consists of direct literals of the inputs. An equation that fails changes nothing, and one
that is defined changes its own name only. If equations are defined in order and one of them fails,
what is defined then is what the equations before it define. -/
theorem attempts_wellFormed_and_atomic (inputs : Nat) (es : List Equation) :
    let d := es.foldl attempt (empty inputs)
    (∀ name f, d.get? name = some f →
      (∃ k < indexBound, name = Name.output k ∨ name = Name.temporary k) ∧
        f.All fun l => l.polarity = .direct ∧ l.index < inputs) ∧
    (∀ e error, d.define e = .error error → d.attempt e = d) ∧
    (∀ e next, d.define e = .ok next → d.attempt e = next ∧ ∃ f, d.formulaOf e = .ok f ∧
      ∀ name, next.get? name = if name = e.name then some f else d.get? name) ∧
    ∀ later last error, d.defineAll later = (last, some error) →
      ∃ front e back, later = front ++ e :: back ∧ error.name = e.name ∧ error.line = e.line ∧
        d.defineAll front = (last, none) ∧ last.define e = .error error := by
  intro d
  have hwellFormed : d.WellFormed := wellFormed_attempts inputs es
  have hinputs : d.inputs = inputs := inputs_attempts inputs es
  refine ⟨?_, fun e error => attempt_of_error, ?_, ?_⟩
  · intro name f hf
    exact ⟨hwellFormed.name name f hf, hinputs ▸ hwellFormed.all name f hf⟩
  · intro e next hnext
    obtain ⟨f, hf, rfl⟩ := define_eq_ok_iff.mp hnext
    exact ⟨attempt_of_define hnext, f, hf, fun name => d.get?_insert e.name name f⟩
  · intro later last error h
    obtain ⟨front, e, back, hlater, hfront, hfailed⟩ := exists_of_defineAll_eq_some h
    obtain ⟨hname, hline⟩ := define_eq_error hfailed
    exact ⟨front, e, back, hlater, hname, hline, hfront, hfailed⟩

/-- Three of five equations fail, for an input as name, a leading zero in a name and an undefined
name. Then two more are defined up to one with an input that the device lacks. -/
theorem attempts_wellFormed_and_atomic_failures :
    let es : List Equation := [⟨"T0", "I0", 1⟩, ⟨"I1", "I0", 2⟩, ⟨"O01", "I0", 3⟩,
      ⟨"O0", "T0 & T9", 4⟩, ⟨"O0", "T0 ^ I1", 5⟩]
    let later : List Equation := [⟨"T0", "~T0", 6⟩, ⟨"O1", "I2", 7⟩, ⟨"O2", "I0", 8⟩]
    let first : Formula := .lit ((Signal.ofIndex 0).literal .direct)
    let parity : Formula := first.xor (.lit ((Signal.ofIndex 1).literal .direct))
    let d := es.foldl attempt (empty 2)
    let last := d.insert "T0" first.not
    let error : EquationError := ⟨"O1", 7, .formula (.unknownInput 2 2)⟩
    d = ((empty 2).insert "T0" first).insert "O0" parity ∧
      (parity.All fun l => l.polarity = .direct ∧ l.index < 2) ∧
      d.defineAll later = (last, some error) ∧
      ∃ front e back, later = front ++ e :: back ∧ error.name = e.name ∧
        d.defineAll front = (last, none) ∧ last.define e = .error error := by
  intro es later first parity d last error
  have hreached : d = ((empty 2).insert "T0" first).insert "O0" parity := by decide +kernel
  have hbound : d.get? "O0" = some parity := by decide +kernel
  have hfails : d.defineAll later = (last, some error) := by decide +kernel
  obtain ⟨hwellFormed, -, -, hatomic⟩ := attempts_wellFormed_and_atomic 2 es
  obtain ⟨front, e, back, hlater, hname, -, hfront, hfailed⟩ := hatomic later last error hfails
  exact ⟨hreached, (hwellFormed "O0" parity hbound).2, hfails, front, e, back, hlater, hname,
    hfront, hfailed⟩

end ArrayLogic.Definitions
