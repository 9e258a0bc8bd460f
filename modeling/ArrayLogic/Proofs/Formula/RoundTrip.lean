import ArrayLogic.Proofs.Definitions.Attempts
import ArrayLogic.Proofs.Formula.Rendering

/-! # Round trip between formulas and their text

The text of a formula has brackets around every binary operation and none around a negation or a
leaf. It is read back in any scope with enough inputs, since it refers to no name. A complemented
literal looks like the negation of the direct one in the text, and is read as such; all else comes
back as it was.
-/

namespace ArrayLogic

namespace Formula

open Text (Spaced indexBound)

/-! ## Complements as negations -/

/-- The formula with the negation of the direct literal for every complemented one. -/
def positive : Formula → Formula
  | const value => const value
  | lit l =>
      match l.polarity with
      | .direct => lit l
      | .complement => not (lit (l.signal.literal .direct))
  | not f => not f.positive
  | and f g => and f.positive g.positive
  | or f g => or f.positive g.positive
  | xor f g => xor f.positive g.positive

theorem eval_positive (f : Formula) (v : Assignment) : f.positive.eval v = f.eval v := by
  induction f with
  | const value => rfl
  | lit l =>
      rcases l with ⟨s, p⟩
      cases p with
      | direct => rfl
      | complement => simp [positive, eval, Literal.eval, Signal.literal, Polarity.apply,
          Polarity.isComplement]
  | not f ih => simp only [positive, eval, ih]
  | and f g ihf ihg => simp only [positive, eval, ihf, ihg]
  | or f g ihf ihg => simp only [positive, eval, ihf, ihg]
  | xor f g ihf ihg => simp only [positive, eval, ihf, ihg]

/-- Only complemented literals are replaced. -/
theorem positive_eq_self_iff {f : Formula} :
    f.positive = f ↔ f.All (·.polarity = .direct) := by
  induction f with
  | const value => simp [positive, All]
  | lit l =>
      rcases l with ⟨s, p⟩
      cases p with
      | direct => simp [positive, All]
      | complement => simp [positive, All]
  | not f ih => rw [positive, not.injEq, ih, All]
  | and f g ihf ihg => rw [positive, and.injEq, ihf, ihg, All]
  | or f g ihf ihg => rw [positive, or.injEq, ihf, ihg, All]
  | xor f g ihf ihg => rw [positive, xor.injEq, ihf, ihg, All]

/-! ## Written symbols -/

/-- A binary operation in brackets. -/
def bracketed (operator : Symbol) (ss ts : List Symbol) : List Symbol :=
  .opening :: (ss ++ operator :: ts) ++ [.closing]

/-- The symbols of the text. -/
def writtenSymbols : Formula → List Symbol
  | const false => [.word "0"]
  | const true => [.word "1"]
  | lit l =>
      match l.polarity with
      | .direct => [.word l.signal.text]
      | .complement => [.not, .word l.signal.text]
  | not f => .not :: f.writtenSymbols
  | and f g => bracketed .and f.writtenSymbols g.writtenSymbols
  | or f g => bracketed .or f.writtenSymbols g.writtenSymbols
  | xor f g => bracketed .xor f.writtenSymbols g.writtenSymbols

theorem denotes_signal {scope : Scope} {s : Signal} (h : s.index < scope.inputs) :
    Denotes scope.meaning .unary [.word s.text] (lit (s.literal .direct)) := by
  have hword : scope.meaning.Word s.text (lit ((Signal.ofIndex s.index).literal .direct)) :=
    .input h
  rw [Signal.ofIndex_index] at hword
  exact .atom (.word hword)

/-- Every formula is written as an operand of the tightest operator, so that the operators around it
do not matter. -/
theorem denotes_writtenSymbols {scope : Scope} {f : Formula}
    (h : f.All (·.index < scope.inputs)) :
    Denotes scope.meaning .unary f.writtenSymbols f.positive := by
  induction f with
  | const value =>
      cases value with
      | false => exact .atom (.word .zero)
      | true => exact .atom (.word .one)
  | lit l =>
      rcases l with ⟨s, p⟩
      cases p with
      | direct => exact denotes_signal h
      | complement => exact .not (denotes_signal h)
  | not f ih => exact .not (ih h)
  | and f g ihf ihg =>
      exact .atom (.brackets (.parity (.conjunction (.and (.unary (ihf h.1)) (ihg h.2)))))
  | or f g ihf ihg =>
      have hf : Denotes scope.meaning .parity _ _ := .conjunction (.unary (ihf h.1))
      exact .atom (.brackets (.or (.parity hf) (.conjunction (.unary (ihg h.2)))))
  | xor f g ihf ihg =>
      have hf : Denotes scope.meaning .conjunction _ _ := .unary (ihf h.1)
      exact .atom (.brackets (.parity (.xor (.conjunction hf) (.unary (ihg h.2)))))

/-- The text in front of any rest spells its pieces in front of those of the rest. -/
def Prints (text : List Char → List Char) (pieces : List (List Char)) : Prop :=
  ∀ rest later, Spaced rest later → Spaced (text rest) (pieces ++ later)

theorem prints_append (piece : List Char) : Prints (piece ++ ·) [piece] :=
  fun _ _ h => .piece piece h

theorem Prints.bracketed {text text' : List Char → List Char} {ss ts : List Symbol}
    (h : Prints text (ss.map (·.text.toList))) (h' : Prints text' (ts.map (·.text.toList)))
    {c : Char} {operator : Symbol} (hoperator : operator.text.toList = [c]) :
    Prints (fun rest => '(' :: text (' ' :: c :: ' ' :: text' (')' :: rest)))
      ((bracketed operator ss ts).map (·.text.toList)) := by
  intro rest later hrest
  have hclosing : Spaced (')' :: rest) ([')'] :: later) := .piece [')'] hrest
  have hright := Spaced.separator (c := ' ') rfl (h' _ _ hclosing)
  have hleft := h _ _ (.separator (c := ' ') rfl (.piece [c] hright))
  have hpieces : (Formula.bracketed operator ss ts).map (·.text.toList) ++ later =
      ['('] :: (ss.map (·.text.toList) ++ [c] :: (ts.map (·.text.toList) ++ [')'] :: later)) := by
    simp only [Formula.bracketed, List.map_append, List.map_cons, hoperator, List.cons_append,
      List.append_assoc]
    rfl
  rw [hpieces]
  exact .piece ['('] hleft

theorem prints_render (f : Formula) : Prints f.render (f.writtenSymbols.map (·.text.toList)) := by
  induction f with
  | const value =>
      cases value with
      | false => exact prints_append ['0']
      | true => exact prints_append ['1']
  | lit l =>
      rcases l with ⟨s, p⟩
      have hs : Prints (s.chars ++ ·) [s.text.toList] := by
        rw [Signal.text, String.toList_ofList]
        exact prints_append s.chars
      cases p with
      | direct => exact hs
      | complement => exact fun rest later h => .piece ['~'] (hs rest later h)
  | not f ih => exact fun rest later h => .piece ['~'] (ih rest later h)
  | and f g ihf ihg => exact ihf.bracketed ihg rfl
  | or f g ihf ihg => exact ihf.bracketed ihg rfl
  | xor f g ihf ihg => exact ihf.bracketed ihg rfl

theorem read_text {scope : Scope} (hinputs : scope.inputs ≤ indexBound) {f : Formula}
    (hf : f.All (·.index < scope.inputs)) : read scope f.text = .ok f.positive := by
  have hdenotes : Denotes scope.meaning .disjunction f.writtenSymbols f.positive :=
    .parity (.conjunction (.unary (denotes_writtenSymbols hf)))
  have hspaced : Spaced f.text.toList (f.writtenSymbols.map (·.text.toList)) := by
    rw [text, String.toList_ofList, ← List.append_nil (f.writtenSymbols.map _)]
    exact prints_render f [] [] .nil
  exact (read_eq_ok_iff hinputs).mpr ⟨_, hdenotes.written hspaced, hdenotes⟩

end Formula

/-- What holds of the inputs and of all bound formulas holds of them after any attempts. -/
theorem Definitions.All.attempts {p : Literal → Prop} {d : Definitions} (h : d.All p)
    (hinput : ∀ k < d.inputs, p ((Signal.ofIndex k).literal .direct)) (es : List Equation) :
    (es.foldl attempt d).All p := by
  refine (attempts_induction (P := fun later => later.inputs = d.inputs ∧ later.All p)
    ?_ ⟨rfl, h⟩ es).2
  intro later next e hnext hlater
  obtain ⟨hinputs, hall⟩ := hlater
  exact ⟨(inputs_of_define hnext).trans hinputs, hall.define (hinputs ▸ hinput) hnext⟩

namespace Formula

/-- The text of a formula is read back as the same formula up to complemented literals, for which
negations are read, whatever the names in scope are bound to. The value is the same in any case, and
without complemented literals so is the formula. Equations define formulas of this kind as long as
nothing else has been bound before. -/
theorem read_text_eq_positive {scope : Scope} (hinputs : scope.inputs ≤ Nat.pow 2 63)
    {f : Formula} (hf : f.All (·.index < scope.inputs)) :
    read scope f.text = .ok f.positive ∧ (f.positive = f ↔ f.All (·.polarity = .direct)) ∧
      (∀ v, f.positive.eval v = f.eval v) ∧
      ∀ (d : Definitions) (es : List Equation) (name : String) (stored : Formula),
        d.inputs = scope.inputs → d.All (·.polarity = .direct) → d.All (·.index < d.inputs) →
        (es.foldl Definitions.attempt d).get? name = some stored →
        read scope stored.text = .ok stored := by
  have hbound : scope.inputs ≤ Text.indexBound := Nat.le_trans hinputs (by decide)
  refine ⟨read_text hbound hf, positive_eq_self_iff, f.eval_positive, ?_⟩
  intro d es name stored hd hdirect hindex hstored
  have hpositive : stored.positive = stored :=
    positive_eq_self_iff.mpr (hdirect.attempts (fun _ _ => rfl) es name stored hstored)
  have hinside : stored.All (·.index < d.inputs) :=
    hindex.attempts (fun k hk => Nat.lt_of_le_of_lt (Nat.mod_le k _) hk) es name stored hstored
  have hread := read_text hbound (hd ▸ hinside)
  rw [hpositive] at hread
  exact hread

/-- A complemented literal and a double negation side by side, and a formula that two equations
define. All names are bound to something else. -/
theorem read_text_eq_positive_complement :
    let first : Formula := .lit ((Signal.ofIndex 0).literal .direct)
    let second : Formula := .lit ((Signal.ofIndex 1).literal .direct)
    let complement : Formula := .lit ((Signal.ofIndex 1).literal .complement)
    let scope : Scope := ⟨2, fun _ => some (.const true)⟩
    let f := (complement.and first.not.not).xor (.const false)
    let es : List Equation := [⟨"T0", "I0 & ~I1", 1⟩, ⟨"O0", "~T0 | I1", 2⟩]
    let stored := (first.and second.not).not.or second
    scope.inputs ≤ Nat.pow 2 63 ∧ f.All (·.index < scope.inputs) ∧
      f.text = "((~I1 & ~~I0) ^ 0)" ∧
      read scope f.text = .ok ((second.not.and first.not.not).xor (.const false)) ∧
      (es.foldl Definitions.attempt (.empty 2)).get? "O0" = some stored ∧
      read scope stored.text = .ok stored := by
  intro first second complement scope f es stored
  have hinputs : scope.inputs ≤ Nat.pow 2 63 := by decide
  have hf : f.All (·.index < scope.inputs) := ⟨⟨Nat.one_lt_two, Nat.two_pos⟩, trivial⟩
  have hstored : (es.foldl Definitions.attempt (.empty 2)).get? "O0" = some stored := by
    decide +kernel
  obtain ⟨hread, -, -, hback⟩ := read_text_eq_positive hinputs hf
  refine ⟨hinputs, hf, by decide +kernel, hread, hstored, ?_⟩
  apply hback (.empty 2) es "O0" stored rfl _ _ hstored
  · intro name g hg
    simp [Definitions.get?, Definitions.empty] at hg
  · intro name g hg
    simp [Definitions.get?, Definitions.empty] at hg

end Formula

end ArrayLogic
