import ArrayLogic.Definitions
import ArrayLogic.Proofs.Formula.Expansion
import ArrayLogic.Proofs.Formula.Spelling
import Mathlib.Logic.Function.Basic

/-! # Equations as assignments

Under an assignment of the inputs, equations can be executed: each one evaluates its expression in
the current store and assigns the value to its name. Definitions hold formulas where a store holds
values. Evaluating the formulas after all equations are defined gives the store after all equations
are executed.
-/

namespace ArrayLogic

open Text (indexBound)

/-! ## Stores -/

/-- The values of names. -/
abbrev Store := String → Option Bool

namespace Store

/-- No name has a value. -/
def empty : Store := fun _ => none

/-- Gives a name a value in place of an earlier one. -/
def assign (σ : Store) (name : String) (value : Bool) : Store :=
  Function.update σ name (some value)

/-- Values as what expressions stand for. -/
def meaning (σ : Store) (inputs : Nat) (v : Assignment) : Formula.Meaning Bool where
  inputs := inputs
  lookup := σ
  const := id
  input := v
  not := Bool.not
  and := Bool.and
  or := Bool.or
  xor := Bool.xor

/-- The expression has the value in the store. -/
def Evaluates (σ : Store) (inputs : Nat) (v : Assignment) (expression : String) (value : Bool) :
    Prop :=
  ∃ ss, Formula.Written expression ss ∧ Formula.Denotes (σ.meaning inputs v) .disjunction ss value

/-- Executing the equations in order leads from one store to another. -/
inductive Executes (inputs : Nat) (v : Assignment) : Store → List Equation → Store → Prop
  | nil {σ : Store} : Executes inputs v σ [] σ
  | cons {σ τ : Store} {e : Equation} {es : List Equation} {value : Bool}
      (hvalue : σ.Evaluates inputs v e.expression value)
      (rest : Executes inputs v (σ.assign e.name value) es τ) : Executes inputs v σ (e :: es) τ

end Store

/-! ## Literals of formulas -/

/-- What holds of the inputs and of the formulas in scope holds of every formula that is read. -/
theorem Formula.Denotes.all {scope : Formula.Scope} {p : Literal → Prop}
    (hinput : ∀ k < scope.inputs, p ((Signal.ofIndex k).literal .direct))
    (hlookup : ∀ name g, scope.lookup name = some g → g.All p) {level : Formula.Level}
    {ss : List Formula.Symbol} {f : Formula} (h : Formula.Denotes scope.meaning level ss f) :
    f.All p := by
  induction h with
  | word hw =>
      cases hw with
      | zero => trivial
      | one => trivial
      | input hk => exact hinput _ hk
      | output _ hbound => exact hlookup _ _ hbound
      | temporary _ hbound => exact hlookup _ _ hbound
  | brackets _ ih => exact ih
  | atom _ ih => exact ih
  | not _ ih => exact ih
  | unary _ ih => exact ih
  | and _ _ ihl ihr => exact ⟨ihl, ihr⟩
  | conjunction _ ih => exact ih
  | xor _ _ ihl ihr => exact ⟨ihl, ihr⟩
  | parity _ ih => exact ih
  | or _ _ ihl ihr => exact ⟨ihl, ihr⟩

namespace Definitions

/-! ## Defining equations -/

theorem formulaOf_eq_ok_iff {d : Definitions} {e : Equation} {f : Formula} :
    d.formulaOf e = .ok f ↔
      Name.isDefinable e.name.toList = true ∧ Formula.read d.scope e.expression = .ok f := by
  unfold formulaOf
  by_cases hdefinable : Name.isDefinable e.name.toList = true
  · have hinput : Name.isInput e.name.toList = false := by
      obtain ⟨k, -, hname | hname⟩ := Name.isDefinable_iff.mp hdefinable
      · simp [hname, Name.output, Name.isInput]
      · simp [hname, Name.temporary, Name.isInput]
    simp [hdefinable, hinput, mapError_eq_ok_iff]
  · have hnot : Name.isDefinable e.name.toList = false := by simpa using hdefinable
    by_cases hinput : Name.isInput e.name.toList = true
    · simp [hnot, hinput]
    · simp [hnot, hinput]

theorem define_eq_ok_iff {d next : Definitions} {e : Equation} :
    d.define e = .ok next ↔ ∃ f, d.formulaOf e = .ok f ∧ next = d.insert e.name f := by
  unfold define
  cases hformula : d.formulaOf e with
  | ok f => simp [eq_comm]
  | error cause => simp

theorem inputs_of_define {d next : Definitions} {e : Equation} (h : d.define e = .ok next) :
    next.inputs = d.inputs := by
  obtain ⟨f, -, rfl⟩ := define_eq_ok_iff.mp h
  rfl

theorem defineAll_cons_eq_iff {d last : Definitions} {e : Equation} {es : List Equation} :
    d.defineAll (e :: es) = (last, none) ↔
      ∃ next, d.define e = .ok next ∧ next.defineAll es = (last, none) := by
  rw [defineAll]
  cases d.define e with
  | ok next => simp
  | error error => simp

/-- What every definition preserves holds after any equations, also if one of them fails. -/
theorem defineAll_induction {P : Definitions → Prop}
    (step : ∀ d next e, d.define e = .ok next → P d → P next) {d : Definitions} (h : P d)
    (es : List Equation) : P (d.defineAll es).1 := by
  induction es generalizing d with
  | nil => exact h
  | cons e es ih =>
      rw [defineAll]
      split
      next next hnext => exact ih (step d next e hnext h)
      next => exact h

/-- Every literal of a bound formula satisfies the condition. -/
def All (p : Literal → Prop) (d : Definitions) : Prop :=
  ∀ name f, d.get? name = some f → f.All p

theorem All.insert {p : Literal → Prop} {d : Definitions} (h : d.All p) (name : String)
    {f : Formula} (hf : f.All p) : (d.insert name f).All p := by
  intro other g hg
  rw [get?_insert] at hg
  split at hg
  · obtain rfl := Option.some.inj hg
    exact hf
  · exact h other g hg

theorem All.define {p : Literal → Prop} {d next : Definitions} (h : d.All p)
    (hinput : ∀ k < d.inputs, p ((Signal.ofIndex k).literal .direct)) {e : Equation}
    (hnext : d.define e = .ok next) : next.All p := by
  obtain ⟨f, hf, rfl⟩ := define_eq_ok_iff.mp hnext
  obtain ⟨ss, -, hdenotes⟩ := Formula.denotes_of_read (formulaOf_eq_ok_iff.mp hf).2
  have hscope : ∀ k < d.scope.inputs, p ((Signal.ofIndex k).literal .direct) := hinput
  exact h.insert e.name (hdenotes.all hscope h)

theorem All.defineAll {p : Literal → Prop} {d : Definitions} (h : d.All p)
    (hinput : ∀ k < d.inputs, p ((Signal.ofIndex k).literal .direct)) (es : List Equation) :
    (d.defineAll es).1.All p := by
  refine (defineAll_induction (P := fun later => later.inputs = d.inputs ∧ later.All p)
    ?_ ⟨rfl, h⟩ es).2
  intro later next e hnext hparts
  obtain ⟨hinputs, hall⟩ := hparts
  exact ⟨(inputs_of_define hnext).trans hinputs, hall.define (hinputs ▸ hinput) hnext⟩

/-- The formulas that equations define use the inputs of the device only. -/
theorem all_index_lt_defineAll (inputs : Nat) (es : List Equation) :
    ((empty inputs).defineAll es).1.All (·.index < inputs) := by
  refine All.defineAll (fun name f hf => ?_) (fun k hk => ?_) es
  · simp [get?, empty] at hf
  · exact Nat.lt_of_le_of_lt (Nat.mod_le k _) hk

/-! ## Execution -/

/-- The values of the bound formulas. -/
def store (d : Definitions) (v : Assignment) : Store :=
  fun name => (d.get? name).map (·.eval v)

theorem store_empty (inputs : Nat) (v : Assignment) : (empty inputs).store v = Store.empty := by
  funext name
  simp [store, Store.empty, get?, empty]

theorem store_insert (d : Definitions) (v : Assignment) (name : String) (f : Formula) :
    (d.insert name f).store v = (d.store v).assign name (f.eval v) := by
  funext other
  rw [store, get?_insert, Store.assign]
  by_cases heq : other = name
  · subst heq
    simp
  · simp [heq, store]

/-- Evaluation turns what is read in scope into what holds in the store. -/
theorem image_meaning (d : Definitions) (v : Assignment) :
    d.scope.meaning.Image (Formula.eval v) ((d.store v).meaning d.inputs v) where
  inputs := rfl
  lookup _ := rfl
  const _ := rfl
  input s := (Bool.xor_false (v s)).symm
  not _ := rfl
  and _ _ := rfl
  or _ _ := rfl
  xor _ _ := rfl

theorem evaluates_iff {d : Definitions} (hinputs : d.inputs ≤ indexBound) {v : Assignment}
    {expression : String} {value : Bool} : (d.store v).Evaluates d.inputs v expression value ↔
      ∃ f, Formula.read d.scope expression = .ok f ∧ f.eval v = value := by
  constructor
  · intro hparts
    obtain ⟨ss, hwritten, hdenotes⟩ := hparts
    obtain ⟨f, hf, heval⟩ := (d.image_meaning v).denotes.mp hdenotes
    exact ⟨f, (Formula.read_eq_ok_iff hinputs).mpr ⟨ss, hwritten, hf⟩, heval⟩
  · intro hparts
    obtain ⟨f, hread, heval⟩ := hparts
    obtain ⟨ss, hwritten, hf⟩ := Formula.denotes_of_read hread
    exact ⟨ss, hwritten, (d.image_meaning v).denotes.mpr ⟨f, hf, heval⟩⟩

/-- Executing an equation assigns the value of the formula that the equation defines. -/
theorem evaluates_iff_of_define {d next : Definitions} (hinputs : d.inputs ≤ indexBound)
    {e : Equation} (h : d.define e = .ok next) {v : Assignment} {value : Bool} :
    (d.store v).Evaluates d.inputs v e.expression value ↔
      (d.store v).assign e.name value = next.store v := by
  obtain ⟨f, hf, rfl⟩ := define_eq_ok_iff.mp h
  have hread := (formulaOf_eq_ok_iff.mp hf).2
  rw [evaluates_iff hinputs, store_insert]
  constructor
  · intro hparts
    obtain ⟨g, hg, hvalue⟩ := hparts
    rw [hread] at hg
    obtain rfl := Except.ok.inj hg
    rw [hvalue]
  · intro hstore
    have hvalue := congrFun hstore e.name
    simp only [Store.assign, Function.update_self, Option.some.injEq] at hvalue
    exact ⟨f, hread, hvalue.symm⟩

/-- Defining equations is executing them on formulas: there is one execution, and it ends in the
values of the defined formulas. -/
theorem executes_iff_of_defineAll {d last : Definitions} (hinputs : d.inputs ≤ indexBound)
    {es : List Equation} (h : d.defineAll es = (last, none)) {v : Assignment} {σ : Store} :
    Store.Executes d.inputs v (d.store v) es σ ↔ σ = last.store v := by
  induction es generalizing d with
  | nil =>
      obtain rfl : d = last := congrArg Prod.fst h
      constructor
      · intro hexecutes
        cases hexecutes
        rfl
      · intro hlast
        rw [hlast]
        exact .nil
  | cons e es ih =>
      obtain ⟨next, hnext, h⟩ := defineAll_cons_eq_iff.mp h
      obtain ⟨f, hf, rfl⟩ := define_eq_ok_iff.mp hnext
      -- The store keeps in step: its assignment is the image of the insertion.
      have hrest := ih (d := d.insert e.name f) hinputs h
      constructor
      · intro hexecutes
        cases hexecutes with
        | cons hvalue rest =>
            rw [(evaluates_iff_of_define hinputs hnext).mp hvalue] at rest
            exact hrest.mp rest
      · intro hlast
        have hassign := (d.store_insert v e.name f).symm
        refine .cons ((evaluates_iff_of_define hinputs hnext).mpr hassign) ?_
        rw [hassign]
        exact hrest.mpr hlast

end Definitions

end ArrayLogic
