import ArrayLogic.Proofs.Formula.Grammar
import ArrayLogic.Proofs.Traversal

/-! # The reader follows the grammar

Reading goes through the symbols once. What waits at each bracket level explains the symbols that
have been read there, so an accepted text derives from the grammar. Conversely a derivation leads the
reader through its symbols, level by level, to the formula that it stands for.
-/

namespace ArrayLogic.Formula

open Text (Located indexBound)

variable {scope : Scope}

/-! ## Steps -/

/-- The steps of the reader. -/
inductive Step (scope : Scope) : State → Symbol → State → Prop
  | not {p : Pending} {outer : List Pending} :
      Step scope (.before p outer) .not (.before p.negate outer)
  | opening {p : Pending} {outer : List Pending} :
      Step scope (.before p outer) .opening (.before .none (p :: outer))
  | word {p : Pending} {outer : List Pending} {w : String} {f : Formula}
      (hw : scope.meaning.Word w f) : Step scope (.before p outer) (.word w) (.behind f p outer)
  | and {f : Formula} {p : Pending} {outer : List Pending} :
      Step scope (.behind f p outer) .and (.before (p.awaitFactor f) outer)
  | xor {f : Formula} {p : Pending} {outer : List Pending} :
      Step scope (.behind f p outer) .xor (.before (p.awaitMember f) outer)
  | or {f : Formula} {p : Pending} {outer : List Pending} :
      Step scope (.behind f p outer) .or (.before (p.awaitSummand f) outer)
  | closing {f : Formula} {p q : Pending} {outer : List Pending} :
      Step scope (.behind f p (q :: outer)) .closing (.behind (p.disjoined f) q outer)

theorem Step.of_advance {state next : State} {s : Located Symbol}
    (h : state.advance scope s = .ok next) : Step scope state s.item next := by
  unfold State.advance at h
  split at h
  next hitem =>
    obtain rfl := Except.ok.inj h
    rw [hitem]
    exact .not
  next hitem =>
    obtain rfl := Except.ok.inj h
    rw [hitem]
    exact .opening
  next word hitem =>
    rw [hitem]
    cases hresolve : scope.resolve s.offset word with
    | error e => simp [hresolve, Except.map] at h
    | ok f =>
        rw [hresolve] at h
        obtain rfl := Except.ok.inj h
        exact .word (Scope.word_of_resolve hresolve)
  next hitem =>
    obtain rfl := Except.ok.inj h
    rw [hitem]
    exact .and
  next hitem =>
    obtain rfl := Except.ok.inj h
    rw [hitem]
    exact .xor
  next hitem =>
    obtain rfl := Except.ok.inj h
    rw [hitem]
    exact .or
  next hitem =>
    obtain rfl := Except.ok.inj h
    rw [hitem]
    exact .closing
  next => simp at h

theorem Step.advance (hinputs : scope.inputs ≤ indexBound) {state next : State}
    {s : Located Symbol} (h : Step scope state s.item next) :
    state.advance scope s = .ok next := by
  rcases s with ⟨offset, item⟩
  cases h with
  | not => rfl
  | opening => rfl
  | word hw =>
      simp only [State.advance, Scope.resolve_of_word hinputs hw]
      rfl
  | and => rfl
  | xor => rfl
  | or => rfl
  | closing => rfl

/-- A run of the reader over several symbols. -/
inductive Runs (scope : Scope) : State → List Symbol → State → Prop
  | nil {state : State} : Runs scope state [] state
  | cons {state next last : State} {s : Symbol} {ss : List Symbol} (step : Step scope state s next)
      (rest : Runs scope next ss last) : Runs scope state (s :: ss) last

theorem Runs.append {first middle last : State} {ss ts : List Symbol}
    (h : Runs scope first ss middle) (hrest : Runs scope middle ts last) :
    Runs scope first (ss ++ ts) last := by
  induction h with
  | nil => exact hrest
  | cons step _ ih => exact .cons step (ih hrest)

theorem Runs.of_foldlM {state last : State} {located : List (Located Symbol)}
    (h : located.foldlM (State.advance scope) state = .ok last) :
    Runs scope state (located.map (·.item)) last := by
  induction located generalizing state with
  | nil =>
      obtain rfl := Except.ok.inj h
      exact .nil
  | cons s located ih =>
      rw [List.foldlM_cons] at h
      obtain ⟨next, hnext, hrest⟩ := bind_eq_ok_iff.mp h
      exact .cons (.of_advance hnext) (ih hrest)

theorem Runs.foldlM (hinputs : scope.inputs ≤ indexBound) {state last : State}
    {located : List (Located Symbol)} (h : Runs scope state (located.map (·.item)) last) :
    located.foldlM (State.advance scope) state = .ok last := by
  induction located generalizing state with
  | nil =>
      cases h
      rfl
  | cons s located ih =>
      cases h with
      | cons step rest =>
          rw [List.foldlM_cons]
          exact bind_eq_ok_iff.mpr ⟨_, step.advance hinputs, ih rest⟩

/-! ## What waits explains what was read -/

/-- A left operand with its operator, or nothing. -/
inductive Left (scope : Scope) (level : Level) (operator : Symbol) :
    Option Formula → List Symbol → Prop
  | none : Left scope level operator none []
  | some {ss : List Symbol} {f : Formula} (hf : Denotes scope.meaning level ss f) :
      Left scope level operator (some f) (ss ++ [operator])

/-- The symbols that were read at one bracket level and wait for an operand. -/
inductive Waits (scope : Scope) (p : Pending) : List Symbol → Prop
  | mk {ds xs cs : List Symbol} (hdisjunction : Left scope .disjunction .or p.disjunction ds)
      (hparity : Left scope .parity .xor p.parity xs)
      (hconjunction : Left scope .conjunction .and p.conjunction cs) :
      Waits scope p (ds ++ (xs ++ (cs ++ List.replicate p.negations .not)))

theorem waits_none : Waits scope .none [] := by
  have hwaits : Waits scope .none _ := .mk .none .none .none
  exact hwaits

theorem Waits.negate {p : Pending} {ss : List Symbol} (h : Waits scope p ss) :
    Waits scope p.negate (ss ++ [.not]) := by
  obtain ⟨hd, hx, hc⟩ := h
  have hwaits : Waits scope p.negate _ := .mk hd hx hc
  simpa [Pending.negate, List.replicate_succ'] using hwaits

theorem denotes_negated {ts : List Symbol} {f : Formula}
    (h : Denotes scope.meaning .unary ts f) (n : Nat) :
    Denotes scope.meaning .unary (List.replicate n .not ++ ts) (Pending.negated n f) := by
  induction n generalizing ts f with
  | zero => exact h
  | succ n ih =>
      have hmore := ih (.not h)
      rw [List.replicate_succ', List.append_assoc]
      exact hmore

theorem Left.conjoin {o : Option Formula} {ss ts : List Symbol} {f : Formula}
    (h : Left scope .conjunction .and o ss) (hf : Denotes scope.meaning .unary ts f) :
    Denotes scope.meaning .conjunction (ss ++ ts) (Pending.complete .and o f) := by
  cases h with
  | none => exact .unary hf
  | some hleft =>
      rw [List.append_assoc]
      exact .and hleft hf

theorem Left.pair {o : Option Formula} {ss ts : List Symbol} {f : Formula}
    (h : Left scope .parity .xor o ss) (hf : Denotes scope.meaning .conjunction ts f) :
    Denotes scope.meaning .parity (ss ++ ts) (Pending.complete .xor o f) := by
  cases h with
  | none => exact .conjunction hf
  | some hleft =>
      rw [List.append_assoc]
      exact .xor hleft hf

theorem Left.disjoin {o : Option Formula} {ss ts : List Symbol} {f : Formula}
    (h : Left scope .disjunction .or o ss) (hf : Denotes scope.meaning .parity ts f) :
    Denotes scope.meaning .disjunction (ss ++ ts) (Pending.complete .or o f) := by
  cases h with
  | none => exact .parity hf
  | some hleft =>
      rw [List.append_assoc]
      exact .or hleft hf

namespace Waits

variable {p : Pending} {ss ts : List Symbol} {f : Formula}

theorem awaitFactor (h : Waits scope p ss) (hf : Denotes scope.meaning .atom ts f) :
    Waits scope (p.awaitFactor f) (ss ++ ts ++ [.and]) := by
  obtain ⟨hd, hx, hc⟩ := h
  have hfactor := hc.conjoin (denotes_negated (.atom hf) p.negations)
  have hwaits : Waits scope (p.awaitFactor f) _ := .mk hd hx (.some hfactor)
  simpa [Pending.awaitFactor] using hwaits

theorem awaitMember (h : Waits scope p ss) (hf : Denotes scope.meaning .atom ts f) :
    Waits scope (p.awaitMember f) (ss ++ ts ++ [.xor]) := by
  obtain ⟨hd, hx, hc⟩ := h
  have hmember := hx.pair (hc.conjoin (denotes_negated (.atom hf) p.negations))
  have hwaits : Waits scope (p.awaitMember f) _ := .mk hd (.some hmember) .none
  simpa [Pending.awaitMember] using hwaits

theorem disjoined (h : Waits scope p ss) (hf : Denotes scope.meaning .atom ts f) :
    Denotes scope.meaning .disjunction (ss ++ ts) (p.disjoined f) := by
  obtain ⟨hd, hx, hc⟩ := h
  have hwhole := hd.disjoin (hx.pair (hc.conjoin (denotes_negated (.atom hf) p.negations)))
  simp only [List.append_assoc]
  exact hwhole

theorem awaitSummand (h : Waits scope p ss) (hf : Denotes scope.meaning .atom ts f) :
    Waits scope (p.awaitSummand f) (ss ++ ts ++ [.or]) := by
  have hwaits : Waits scope (p.awaitSummand f) _ := .mk (.some (h.disjoined hf)) .none .none
  simpa [Pending.awaitSummand] using hwaits

end Waits

/-- The symbols in front of the innermost bracket level. -/
inductive Opens (scope : Scope) : List Pending → List Symbol → Prop
  | nil : Opens scope [] []
  | cons {p : Pending} {outer : List Pending} {os ps : List Symbol} (houter : Opens scope outer os)
      (hp : Waits scope p ps) : Opens scope (p :: outer) (os ++ ps ++ [.opening])

/-- The symbols that lead the reader to a state. -/
inductive Reads (scope : Scope) : State → List Symbol → Prop
  | before {p : Pending} {outer : List Pending} {os ps : List Symbol} (houter : Opens scope outer os)
      (hp : Waits scope p ps) : Reads scope (.before p outer) (os ++ ps)
  | behind {f : Formula} {p : Pending} {outer : List Pending} {os ps ts : List Symbol}
      (houter : Opens scope outer os) (hp : Waits scope p ps)
      (hf : Denotes scope.meaning .atom ts f) : Reads scope (.behind f p outer) (os ++ (ps ++ ts))

theorem Reads.step {state next : State} {ss : List Symbol} {s : Symbol}
    (h : Reads scope state ss) (hstep : Step scope state s next) :
    Reads scope next (ss ++ [s]) := by
  cases hstep with
  | not =>
      obtain ⟨houter, hp⟩ | _ := h
      rw [List.append_assoc]
      exact .before houter hp.negate
  | opening =>
      obtain ⟨houter, hp⟩ | _ := h
      simpa using Reads.before (houter.cons hp) waits_none
  | word hw =>
      obtain ⟨houter, hp⟩ | _ := h
      rw [List.append_assoc]
      exact .behind houter hp (.word hw)
  | and =>
      obtain _ | ⟨houter, hp, hf⟩ := h
      rw [List.append_assoc]
      exact .before houter (hp.awaitFactor hf)
  | xor =>
      obtain _ | ⟨houter, hp, hf⟩ := h
      rw [List.append_assoc]
      exact .before houter (hp.awaitMember hf)
  | or =>
      obtain _ | ⟨houter, hp, hf⟩ := h
      rw [List.append_assoc]
      exact .before houter (hp.awaitSummand hf)
  | closing =>
      obtain _ | ⟨houter, hp, hf⟩ := h
      -- What was read inside the brackets becomes one operand of the level outside.
      obtain _ | ⟨houter, hq⟩ := houter
      simpa using Reads.behind houter hq (.brackets (hp.disjoined hf))

theorem Reads.runs {state last : State} {ss ts : List Symbol} (h : Reads scope state ss)
    (hruns : Runs scope state ts last) : Reads scope last (ss ++ ts) := by
  induction hruns generalizing ss with
  | nil => simpa using h
  | cons step _ ih => simpa using ih (h.step step)

/-- An accepted sequence of symbols derives from the grammar. -/
theorem denotes_of_runs {operand : Formula} {p : Pending} {ss : List Symbol}
    (h : Runs scope .start ss (.behind operand p [])) :
    Denotes scope.meaning .disjunction ss (p.disjoined operand) := by
  have hstart : Reads scope .start [] := .before .nil waits_none
  obtain _ | ⟨houter, hp, hf⟩ := hstart.runs h
  cases houter
  exact hp.disjoined hf

/-! ## Derivations lead the reader -/

/-- Nothing waits that a derivation at the level would have to complete. -/
def Fresh : Level → Pending → Prop
  | .atom, _ => True
  | .unary, _ => True
  | .conjunction, p => p.conjunction = none ∧ p.negations = 0
  | .parity, p => p.parity = none ∧ p.conjunction = none ∧ p.negations = 0
  | .disjunction, p => p = .none

/-- What waits in `q` completes the operand to the formula at the level. What waits in `p` for looser
operators still does. -/
def Completes (f : Formula) (p q : Pending) (operand : Formula) : Level → Prop
  | .atom => q = p ∧ operand = f
  | .unary => q.disjunction = p.disjunction ∧ q.parity = p.parity ∧ q.conjunction = p.conjunction ∧
      Pending.negated q.negations operand = Pending.negated p.negations f
  | .conjunction => q.disjunction = p.disjunction ∧ q.parity = p.parity ∧ q.conjoined operand = f
  | .parity => q.disjunction = p.disjunction ∧ q.paired operand = f
  | .disjunction => q.disjoined operand = f

theorem Denotes.runs {level : Level} {ss : List Symbol} {f : Formula}
    (h : Denotes scope.meaning level ss f) (p : Pending) (hfresh : Fresh level p)
    (outer : List Pending) : ∃ q operand, Completes f p q operand level ∧
      Runs scope (.before p outer) ss (.behind operand q outer) := by
  induction h generalizing p outer with
  | @word w f hw => exact ⟨p, f, ⟨rfl, rfl⟩, .cons (.word hw) .nil⟩
  | @brackets ss f _ ih =>
      -- Reading starts afresh inside the brackets, and what waits outside is kept for later.
      obtain ⟨q, operand, hcompletes, hruns⟩ := ih .none rfl (p :: outer)
      refine ⟨p, f, ⟨rfl, rfl⟩, ?_⟩
      have hclosing : Step scope (.behind operand q (p :: outer)) .closing (.behind f p outer) :=
        hcompletes ▸ .closing
      exact .cons .opening (hruns.append (.cons hclosing .nil))
  | atom _ ih =>
      obtain ⟨q, operand, ⟨rfl, rfl⟩, hruns⟩ := ih p trivial outer
      exact ⟨q, operand, ⟨rfl, rfl, rfl, rfl⟩, hruns⟩
  | not _ ih =>
      -- One more negation waits in front of the rest of the operand.
      obtain ⟨q, operand, hcompletes, hruns⟩ := ih p.negate trivial outer
      exact ⟨q, operand, hcompletes, .cons .not hruns⟩
  | unary _ ih =>
      obtain ⟨hnone, hzero⟩ := hfresh
      obtain ⟨q, operand, ⟨hd, hx, hc, hn⟩, hruns⟩ := ih p trivial outer
      refine ⟨q, operand, ⟨hd, hx, ?_⟩, hruns⟩
      rw [Pending.conjoined, hc, hn, hnone, hzero]
      rfl
  | and _ _ ihl ihr =>
      -- The left operand waits as a whole while the right one is read.
      obtain ⟨q, operand, ⟨hd, hx, hf⟩, hleft⟩ := ihl p hfresh outer
      obtain ⟨r, last, ⟨hd', hx', hc', hn'⟩, hright⟩ := ihr (q.awaitFactor operand) trivial outer
      refine ⟨r, last, ⟨hd'.trans hd, hx'.trans hx, ?_⟩, hleft.append (.cons .and hright)⟩
      rw [Pending.conjoined, hc', hn']
      exact congrArg (Formula.and · _) hf
  | conjunction _ ih =>
      obtain ⟨hnone, hfresh⟩ := hfresh
      obtain ⟨q, operand, ⟨hd, hx, hf⟩, hruns⟩ := ih p hfresh outer
      refine ⟨q, operand, ⟨hd, ?_⟩, hruns⟩
      rw [Pending.paired, hx, hf, hnone]
      rfl
  | xor _ _ ihl ihr =>
      obtain ⟨q, operand, ⟨hd, hf⟩, hleft⟩ := ihl p hfresh outer
      obtain ⟨r, last, ⟨hd', hx', hg⟩, hright⟩ :=
        ihr (q.awaitMember operand) ⟨rfl, rfl⟩ outer
      refine ⟨r, last, ⟨hd'.trans hd, ?_⟩, hleft.append (.cons .xor hright)⟩
      rw [Pending.paired, hx', hg]
      exact congrArg (Formula.xor · _) hf
  | parity _ ih =>
      obtain rfl := hfresh
      obtain ⟨q, operand, ⟨hd, hf⟩, hruns⟩ := ih .none ⟨rfl, rfl, rfl⟩ outer
      refine ⟨q, operand, ?_, hruns⟩
      change q.disjoined operand = _
      rw [Pending.disjoined, hd, hf]
      rfl
  | or _ _ ihl ihr =>
      obtain ⟨q, operand, hf, hleft⟩ := ihl p hfresh outer
      obtain ⟨r, last, ⟨hd', hg⟩, hright⟩ :=
        ihr (q.awaitSummand operand) ⟨rfl, rfl, rfl⟩ outer
      refine ⟨r, last, ?_, hleft.append (.cons .or hright)⟩
      change r.disjoined last = _
      rw [Pending.disjoined, hd', hg]
      exact congrArg (Formula.or · _) hf

end ArrayLogic.Formula
