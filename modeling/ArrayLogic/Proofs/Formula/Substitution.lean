import ArrayLogic.Definitions
import ArrayLogic.Proofs.Formula.Dependence
import ArrayLogic.Proofs.Formula.Rendering
import ArrayLogic.Proofs.Formula.Run
import ArrayLogic.Proofs.Text.Replacement

/-! # Names stand for formulas

A name stands for the formula that it is bound to, whatever the operators around it are. Reading a
text with a bound name is therefore the same as reading the text in which the name is replaced by an
expression for the formula, in brackets. The argument follows the reader: the symbols of the
expression lead it from the opening to the closing bracket just as they do without the brackets, and
then it stands where the name alone would have led it.
-/

namespace ArrayLogic

namespace Formula

open Text (Located Spells replaceWord)

variable {scope : Scope}

/-! ## Brackets -/

namespace State

/-- The state with more brackets open around it. -/
def within (enclosing : List Pending) : State → State
  | before p outer => before p (outer ++ enclosing)
  | behind f p outer => behind f p (outer ++ enclosing)

theorem step_within {state next : State} {s : Symbol} (h : state.step scope s = some next)
    (enclosing : List Pending) :
    (state.within enclosing).step scope s = some (next.within enclosing) := by
  have hadvance : state.advance scope ⟨0, s⟩ = .ok next := toOption_eq_some_iff.mp h
  cases Step.of_advance hadvance with
  | not | opening | and | xor | or | closing => rfl
  | word =>
      obtain ⟨f, hresolve, hnext⟩ := map_eq_ok_iff.mp hadvance
      cases hnext
      apply toOption_eq_some_iff.mpr
      exact map_eq_ok_iff.mpr ⟨_, hresolve, rfl⟩

/-- Brackets that are open outside do not matter as long as they stay open. -/
theorem run_within {state last : State} {ss : List Symbol} (h : state.run scope ss = some last)
    (enclosing : List Pending) :
    (state.within enclosing).run scope ss = some (last.within enclosing) := by
  induction ss generalizing state with
  | nil =>
      obtain rfl := Option.some.inj h
      rfl
  | cons s ss ih =>
      rw [run_cons] at h ⊢
      obtain ⟨next, hnext, hlast⟩ := Option.bind_eq_some_iff.mp h
      rw [step_within hnext, Option.bind_some]
      exact ih hlast

/-- An expression in brackets becomes one operand. -/
theorem run_brackets {operand : Formula} {q : Pending} {ss : List Symbol}
    (h : start.run scope ss = some (.behind operand q [])) (p : Pending) (outer : List Pending) :
    (before p outer).run scope (.opening :: ss ++ [.closing]) =
      some (.behind (q.disjoined operand) p outer) := by
  have hinner : (before .none (p :: outer)).run scope ss = some (behind operand q (p :: outer)) :=
    run_within h (p :: outer)
  rw [List.cons_append, run_cons]
  change (before .none (p :: outer)).run scope (ss ++ [.closing]) = _
  rw [run_append, hinner]
  rfl

end State

/-! ## Substitution -/

/-- The scope with one more binding, in place of an earlier one. -/
def Scope.bind (scope : Scope) (name : String) (f : Formula) : Scope :=
  ⟨scope.inputs, fun word => if word = name then some f else scope.lookup word⟩

/-- A bracketed expression for a name, and any other symbol as it is. -/
def Symbol.substitute (name : String) (inner : List Symbol) (s : Symbol) : List Symbol :=
  if s = .word name then .opening :: inner ++ [.closing] else [s]

section

variable {name : String} {inner : List Symbol} {operand : Formula} {q : Pending}

/-- A bound name leads the reader to the same state as the expression that it stands for. -/
theorem State.step_bind (hname : Name.isDefinable name.toList = true)
    (hinner : start.run scope inner = some (.behind operand q [])) (state : State) (s : Symbol) :
    state.step (scope.bind name (q.disjoined operand)) s =
      state.run scope (s.substitute name inner) := by
  unfold Symbol.substitute
  split
  next hs =>
    subst hs
    cases state with
    | before p outer =>
        have hlookup : (scope.bind name (q.disjoined operand)).lookup name =
            some (q.disjoined operand) := if_pos rfl
        rw [run_brackets hinner, step, toOption_eq_some_iff]
        exact map_eq_ok_iff.mpr ⟨_, Scope.resolve_of_isDefinable hname hlookup 0, rfl⟩
    | behind f p outer => cases outer <;> rfl
  next hs =>
    have hsame : state.advance (scope.bind name (q.disjoined operand)) ⟨0, s⟩ =
        state.advance scope ⟨0, s⟩ := by
      apply advance_congr
      rintro word rfl
      have hinputs : (scope.bind name (q.disjoined operand)).inputs = scope.inputs := rfl
      have hlookup : (scope.bind name (q.disjoined operand)).lookup word = scope.lookup word :=
        if_neg fun hword => hs (congrArg Symbol.word hword)
      exact Scope.resolve_congr hinputs hlookup 0
    rw [run_singleton, step, hsame]
    rfl

/-- Reading goes on in the same way behind each symbol, so it ends in the same state. -/
theorem State.run_bind (hname : Name.isDefinable name.toList = true)
    (hinner : start.run scope inner = some (.behind operand q [])) (state : State)
    (ss : List Symbol) : state.run (scope.bind name (q.disjoined operand)) ss =
      state.run scope (ss.flatMap (Symbol.substitute name inner)) := by
  induction ss generalizing state with
  | nil => rfl
  | cons s ss ih =>
      rw [run_cons, step_bind hname hinner, List.flatMap_cons, run_append]
      congr 1
      funext next
      exact ih next

/-- The text with a bracketed definition for every occurrence of a name as a word. -/
def substituteText (name definition text : String) : String :=
  String.ofList
    (replaceWord wordRule name.toList ('(' :: definition.toList ++ [')']) text.toList)

theorem isWord_of_isDefinable (hname : Name.isDefinable name.toList = true) :
    wordRule.IsWord name.toList := by
  obtain ⟨k, -, hk | hk⟩ := Name.isDefinable_iff.mp hname
  · rw [hk]
    exact isWord_numbered (by decide) k
  · rw [hk]
    exact isWord_numbered (by decide) k

/-- A symbol is written like a name only if it is the name. -/
theorem Symbol.text_eq_iff (hname : Name.isDefinable name.toList = true) {s : Symbol} :
    s.text.toList = name.toList ↔ s = .word name := by
  constructor
  · intro htext
    cases s with
    | word w => exact congrArg word (String.toList_inj.mp htext)
    | not | and | or | xor | opening | closing =>
        exact absurd htext ((isWord_of_isDefinable hname).ne_singleton (by decide))
  · rintro rfl
    rfl

theorem Symbol.proper_of_mem_substitute (hinner : ∀ s ∈ inner, s.Proper) {s t : Symbol}
    (ht : t.Proper) (h : s ∈ t.substitute name inner) : s.Proper := by
  unfold substitute at h
  split at h
  next =>
    rcases List.mem_append.mp h with h | h
    · rcases List.mem_cons.mp h with rfl | h
      · trivial
      · exact hinner s h
    · obtain rfl := List.mem_singleton.mp h
      trivial
  next =>
    obtain rfl := List.mem_singleton.mp h
    exact ht

/-- The bracketed definition writes its own symbols where the text wrote the name. -/
theorem Written.substituteText {definition text : String} {ss : List Symbol}
    (htext : Written text ss) (hname : Name.isDefinable name.toList = true)
    (hdefinition : Written definition inner) : Written (substituteText name definition text)
      (ss.flatMap (Symbol.substitute name inner)) := by
  constructor
  · have hclosing : Spells wordRule [')'] [[')']] := .sign (by decide) (by decide) .nil
    have hbrackets : Spells wordRule ('(' :: definition.toList ++ [')'])
        (['('] :: inner.map (·.text.toList) ++ [[')']]) :=
      .sign (by decide) (by decide)
        (hdefinition.1.append (Text.WordRule.endsWord_cons (by decide) []) hclosing)
    have hend : wordRule.EndsWord ('(' :: definition.toList ++ [')']) :=
      Text.WordRule.endsWord_cons (by decide) _
    have hreplaced :=
      htext.1.replaceWord lawful_wordRule (isWord_of_isDefinable hname) hbrackets hend
    have hpieces : (ss.flatMap (Symbol.substitute name inner)).map (·.text.toList) =
        (ss.map (·.text.toList)).flatMap fun piece => if piece = name.toList
          then ['('] :: inner.map (·.text.toList) ++ [[')']] else [piece] := by
      rw [List.map_flatMap, List.flatMap_map]
      congr 1
      funext s
      by_cases hs : s = .word name
      · simp [hs, Symbol.substitute, Symbol.text]
      · have hne := (Symbol.text_eq_iff hname).not.mpr hs
        simp [hs, hne, Symbol.substitute]
    rw [Formula.substituteText, String.toList_ofList, hpieces]
    exact hreplaced
  · intro s hs
    obtain ⟨t, ht, hs⟩ := List.mem_flatMap.mp hs
    exact Symbol.proper_of_mem_substitute hdefinition.2 (htext.2 t ht) hs

/-- A text with a bound name is read like the text with a bracketed expression for the name. -/
theorem read_bind_iff {definition text : String} {f : Formula}
    (hname : Name.isDefinable name.toList = true) (hdefinition : read scope definition = .ok f)
    {located : List (Located Symbol)} (htext : symbols text = .ok located) (r : Formula) :
    read (scope.bind name f) text = .ok r ↔
      read scope (substituteText name definition text) = .ok r := by
  obtain ⟨inner, hinner, -⟩ := denotes_of_read hdefinition
  obtain ⟨operand, q, hrun, rfl⟩ := hinner.read_eq_ok_iff.mp hdefinition
  have hwritten := written_of_symbols htext
  rw [hwritten.read_eq_ok_iff, (hwritten.substituteText hname hinner).read_eq_ok_iff,
    State.run_bind hname hrun]

end

end Formula

namespace Definitions

theorem scope_insert (d : Definitions) (name : String) (f : Formula) :
    (d.insert name f).scope = d.scope.bind name f := by
  have hlookup : (d.insert name f).get? = fun word => if word = name then some f else d.get? word :=
    funext fun word => d.get?_insert name word f
  rw [scope, hlookup]
  rfl

/-- A reference to a name is read as the formula of the name, not as its text: the result is the one
that the text has with a bracketed expression for the formula in place of every such reference. The
expression may itself refer to what the name was bound to before. -/
theorem read_insert_iff_substituteText {d : Definitions} {name definition text : String}
    {f : Formula} (hname : Name.isDefinable name.toList = true)
    (hdefinition : Formula.read d.scope definition = .ok f)
    {located : List (Text.Located Formula.Symbol)} (htext : Formula.symbols text = .ok located)
    (r : Formula) : Formula.read (d.insert name f).scope text = .ok r ↔
      Formula.read d.scope (Formula.substituteText name definition text) = .ok r := by
  rw [scope_insert]
  exact Formula.read_bind_iff hname hdefinition htext r

/-- A temporary is redefined from itself by an operator that binds less tightly than those around
its references. A longer name that begins with it is another word. -/
theorem read_insert_iff_substituteText_looser_operator :
    let first : Formula := .lit ((Signal.ofIndex 0).literal .direct)
    let f : Formula := first.or (.lit ((Signal.ofIndex 1).literal .direct))
    let d := ((empty 2).insert "T1" first).insert "T10" (.const true)
    let text := "~T1&T10\t^T1"
    let r : Formula := (f.not.and (.const true)).xor f
    Name.isDefinable "T1".toList = true ∧ Formula.read d.scope "T1 | I1" = .ok f ∧
      (Formula.symbols text).isOk = true ∧
      Formula.substituteText "T1" "T1 | I1" text = "~(T1 | I1)&T10\t^(T1 | I1)" ∧
      Formula.read (d.insert "T1" f).scope text = .ok r ∧
      Formula.read d.scope "~(T1 | I1)&T10\t^(T1 | I1)" = .ok r := by
  intro first f d text r
  have hname : Name.isDefinable "T1".toList = true := by decide +kernel
  have hdefinition : Formula.read d.scope "T1 | I1" = .ok f := by decide +kernel
  have hsymbols : (Formula.symbols text).isOk = true := by decide +kernel
  have htext : Formula.substituteText "T1" "T1 | I1" text = "~(T1 | I1)&T10\t^(T1 | I1)" := by
    decide +kernel
  have hread : Formula.read (d.insert "T1" f).scope text = .ok r := by decide +kernel
  cases hlocated : Formula.symbols text with
  | error e => simp [hlocated, Except.isOk, Except.toBool] at hsymbols
  | ok located =>
      have hreplaced := (read_insert_iff_substituteText hname hdefinition hlocated r).mp hread
      rw [htext] at hreplaced
      exact ⟨hname, hdefinition, hlocated ▸ hsymbols, htext, hread, hreplaced⟩

end Definitions

end ArrayLogic
