import ArrayLogic.Proofs.Formula.Spelling

/-! # Renderings of formulas

A text renders a formula if it writes symbols that derive from the grammar and stand for the
formula. Separators may stand anywhere around the symbols, and nothing has to keep two of them
apart: no derivation has two words side by side. A level of the grammar with a binary operator
derives exactly the chains of operands of the next tighter level, and a chain is combined from the
left.
-/

namespace ArrayLogic.Formula

open Text (Spaced indexBound)

variable {α : Type} {m : Meaning α} {scope : Scope}

/-! ## Chains -/

/-- The symbols are operands of a level with an operator between any two neighbours, and the value
combines theirs from the left. -/
inductive Chain (m : Meaning α) (level : Level) (operator : Symbol) (combine : α → α → α) :
    List Symbol → α → Prop
  | mk {first : List Symbol} {a : α} (others : List (List Symbol × α))
      (hfirst : Denotes m level first a)
      (hothers : ∀ operand ∈ others, Denotes m level operand.1 operand.2) :
      Chain m level operator combine (first ++ others.flatMap fun operand => operator :: operand.1)
        (others.foldl (fun left operand => combine left operand.2) a)

namespace Chain

variable {level : Level} {operator : Symbol} {combine : α → α → α} {ss ts : List Symbol} {a b : α}

theorem single (h : Denotes m level ss a) : Chain m level operator combine ss a := by
  have hchain : Chain m level operator combine _ _ := .mk [] h (by simp)
  simpa using hchain

theorem concat (h : Chain m level operator combine ss a) (hlast : Denotes m level ts b) :
    Chain m level operator combine (ss ++ operator :: ts) (combine a b) := by
  obtain ⟨others, hfirst, hothers⟩ := h
  have hmore : ∀ operand ∈ others ++ [(ts, b)], Denotes m level operand.1 operand.2 := by
    intro operand hmem
    rcases List.mem_append.mp hmem with hmem | hmem
    · exact hothers operand hmem
    · obtain rfl := List.mem_singleton.mp hmem
      exact hlast
  have hchain : Chain m level operator combine _ _ := .mk _ hfirst hmore
  simpa using hchain

/-- What holds of every operand, and goes on from one operand to the next, holds of the chain. -/
theorem induction {P : List Symbol → α → Prop} (h : Chain m level operator combine ss a)
    (hsingle : ∀ {us : List Symbol} {c : α}, Denotes m level us c → P us c)
    (hconcat : ∀ {us vs : List Symbol} {c d : α}, P us c → Denotes m level vs d →
      P (us ++ operator :: vs) (combine c d)) : P ss a := by
  cases h with
  | @mk first a others hfirst hothers =>
      -- The property holds of the chain up to an operand, and then with the operand.
      have hstart : P first a := hsingle hfirst
      clear hfirst
      induction others generalizing first a with
      | nil => simpa using hstart
      | cons operand others ih =>
          obtain ⟨hoperand, hrest⟩ := List.forall_mem_cons.mp hothers
          have hlater := ih hrest (hconcat hstart hoperand)
          simpa using hlater

end Chain

theorem denotes_conjunction_iff {ss : List Symbol} {a : α} :
    Denotes m .conjunction ss a ↔ Chain m .unary .and m.and ss a := by
  constructor
  · intro h
    -- Only two rules end at this level, and one of them extends a chain.
    generalize hlevel : Level.conjunction = level at h
    induction h with
    | unary inner => exact .single inner
    | and _ right ih _ => exact (ih hlevel).concat right
    | word | brackets | atom | not | conjunction | xor | parity | or => cases hlevel
  · exact fun h => h.induction .unary .and

theorem denotes_parity_iff {ss : List Symbol} {a : α} :
    Denotes m .parity ss a ↔ Chain m .conjunction .xor m.xor ss a := by
  constructor
  · intro h
    generalize hlevel : Level.parity = level at h
    induction h with
    | conjunction inner => exact .single inner
    | xor _ right ih _ => exact (ih hlevel).concat right
    | word | brackets | atom | not | unary | and | parity | or => cases hlevel
  · exact fun h => h.induction .conjunction .xor

theorem denotes_disjunction_iff {ss : List Symbol} {a : α} :
    Denotes m .disjunction ss a ↔ Chain m .parity .or m.or ss a := by
  constructor
  · intro h
    generalize hlevel : Level.disjunction = level at h
    induction h with
    | parity inner => exact .single inner
    | or _ right ih _ => exact (ih hlevel).concat right
    | word | brackets | atom | not | unary | and | conjunction | xor => cases hlevel
  · exact fun h => h.induction .parity .or

/-! ## Neighbours -/

/-- Whether a symbol is a single character that stands for itself. -/
def Symbol.isSign : Symbol → Bool
  | .word _ => false
  | _ => true

theorem Symbol.isSign_text {s : Symbol} (h : s.isSign = true) : wordRule.IsSign s.text.toList := by
  cases s with
  | word w => simp [isSign] at h
  | not | and | or | xor | opening | closing => exact ⟨_, rfl, by decide, by decide⟩

/-- A letter with a numeral behind it is a word. -/
theorem isWord_numbered {letter : Char} (hletter : letter.isAlphanum = true) (k : Nat) :
    wordRule.IsWord (String.ofList (letter :: Nat.toDigits 10 k)).toList := by
  rw [String.toList_ofList]
  refine ⟨letter, _, rfl, hletter, ?_⟩
  intro c hc
  have hdigit : c.isDigit = true := Nat.isDigit_of_mem_toDigits (by decide) (by decide) hc
  exact Bool.or_eq_true_iff.mpr (.inr hdigit)

theorem Meaning.Word.isWord {w : String} {a : α} (h : m.Word w a) : wordRule.IsWord w.toList := by
  cases h with
  | zero | one => exact ⟨_, [], rfl, by decide, by simp⟩
  | input | output | temporary => exact isWord_numbered (by decide) _

theorem Step.isSign_or_isWord {state next : State} {s : Symbol} (h : Step scope state s next) :
    s.isSign = true ∨ wordRule.IsWord s.text.toList := by
  cases h with
  | word hw => exact .inr hw.isWord
  | not | opening | and | xor | or | closing => exact .inl rfl

/-- Behind a word the reader goes on with a sign only. -/
theorem Step.isSign_or_isSign {state next last : State} {s t : Symbol}
    (h : Step scope state s next) (hnext : Step scope next t last) :
    s.isSign = true ∨ t.isSign = true := by
  cases h with
  | word =>
      right
      cases hnext <;> rfl
  | not | opening | and | xor | or | closing => exact .inl rfl

theorem Runs.isSign_or_isWord {state last : State} {ss : List Symbol}
    (h : Runs scope state ss last) :
    ∀ s ∈ ss, s.isSign = true ∨ wordRule.IsWord s.text.toList := by
  induction h with
  | nil => simp
  | cons step _ ih => exact List.forall_mem_cons.mpr ⟨step.isSign_or_isWord, ih⟩

/-- No two words are neighbours in a run. -/
theorem Runs.apart {state last : State} {ss : List Symbol} (h : Runs scope state ss last) :
    ss.IsChain fun s t => s.isSign = true ∨ t.isSign = true := by
  induction h with
  | nil => exact .nil
  | cons step rest ih =>
      refine List.isChain_cons.mpr ⟨?_, ih⟩
      intro t ht
      cases rest with
      | nil => simp at ht
      | cons step' _ =>
          obtain rfl := Option.some.inj ht
          exact step.isSign_or_isSign step'

/-! ## Acceptance -/

/-- The text renders the formula in the scope. -/
def Renders (scope : Scope) (text : String) (f : Formula) : Prop :=
  ∃ ss : List Symbol, Spaced text.toList (ss.map (·.text.toList)) ∧
    Denotes scope.meaning .disjunction ss f

theorem Symbol.proper_of_isWord {s : Symbol}
    (h : s.isSign = true ∨ wordRule.IsWord s.text.toList) : s.Proper := by
  cases s with
  | word w =>
      rcases h with h | ⟨c, rest, hw, hc, hrest⟩
      · simp [isSign] at h
      · intro d hd
        rw [show w.toList = c :: rest from hw] at hd
        rcases List.mem_cons.mp hd with rfl | hd
        · exact hc
        · exact hrest d hd
  | not | and | or | xor | opening | closing => trivial

/-- The symbols of a run are found again, wherever separators stand between them. -/
theorem Runs.written {state last : State} {ss : List Symbol} {text : String}
    (h : Runs scope state ss last) (htext : Spaced text.toList (ss.map (·.text.toList))) :
    Written text ss := by
  have hpieces := h.isSign_or_isWord
  refine ⟨htext.spells lawful_wordRule ?_ ?_, fun s hs => Symbol.proper_of_isWord (hpieces s hs)⟩
  · intro piece hpiece
    obtain ⟨s, hs, rfl⟩ := List.mem_map.mp hpiece
    exact (hpieces s hs).imp Symbol.isSign_text id
  · refine List.isChain_map_of_isChain _ ?_ h.apart
    exact fun s t hst => hst.imp Symbol.isSign_text Symbol.isSign_text

/-- The reader is led through the symbols of a derivation, so these are found again, too. -/
theorem Denotes.written {ss : List Symbol} {f : Formula} {text : String}
    (h : Denotes scope.meaning .disjunction ss f)
    (htext : Spaced text.toList (ss.map (·.text.toList))) : Written text ss := by
  obtain ⟨p, operand, -, hruns⟩ := h.runs .none rfl []
  exact hruns.written htext

/-- The reader accepts exactly the texts that render a formula, and returns this formula. The levels
of the grammar are chains: of members joined by `|`, of factors joined by `^`, and of operands
joined by `&`, each combined from the left. -/
theorem read_accepts_grammar {scope : Scope} (hinputs : scope.inputs ≤ Nat.pow 2 63) :
    (∀ text f, read scope text = .ok f ↔ Renders scope text f) ∧
      (∀ ss f, Denotes scope.meaning .disjunction ss f ↔ Chain scope.meaning .parity .or .or ss f) ∧
      (∀ ss f, Denotes scope.meaning .parity ss f ↔
        Chain scope.meaning .conjunction .xor .xor ss f) ∧
      ∀ ss f, Denotes scope.meaning .conjunction ss f ↔
        Chain scope.meaning .unary .and .and ss f := by
  have hbound : scope.inputs ≤ indexBound := Nat.le_trans hinputs (by decide)
  refine ⟨?_, fun _ _ => denotes_disjunction_iff, fun _ _ => denotes_parity_iff,
    fun _ _ => denotes_conjunction_iff⟩
  intro text f
  rw [read_eq_ok_iff hbound]
  apply exists_congr
  intro ss
  constructor
  · intro hparts
    exact ⟨hparts.1.1.spaced, hparts.2⟩
  · intro hparts
    exact ⟨hparts.2.written hparts.1, hparts.2⟩

/-- A text with all operators and hardly any separators is read. A numeral with a leading zero is
no word, and two words cannot stand side by side. -/
theorem read_accepts_grammar_all_operators :
    let first : Formula := .lit ((Signal.ofIndex 0).literal .direct)
    let bound : Formula := first.xor (.const true)
    let scope : Scope := ⟨1, fun name => if name = "T10" then some bound else none⟩
    let text := "I0|~~I0^T10 &(0\t^1)&I0|1"
    let product := (bound.and (.xor (.const false) (.const true))).and first
    let f := (first.or (.xor first.not.not product)).or (.const true)
    scope.inputs ≤ Nat.pow 2 63 ∧ read scope text = .ok f ∧ Renders scope text f ∧
      (∀ f, ¬ Renders scope "I00" f) ∧ ∀ f, ¬ Renders scope "I0 I0" f := by
  intro first bound scope text product f
  have hinputs : scope.inputs ≤ Nat.pow 2 63 := by decide
  have hread : read scope text = .ok f := by decide +kernel
  have hrenders := (read_accepts_grammar hinputs).1
  have hnumeral : (read scope "I00").toOption = none := by decide +kernel
  have hwords : (read scope "I0 I0").toOption = none := by decide +kernel
  refine ⟨hinputs, hread, (hrenders text f).mp hread, ?_, ?_⟩
  · intro f hf
    rw [(hrenders _ f).mpr hf] at hnumeral
    cases hnumeral
  · intro f hf
    rw [(hrenders _ f).mpr hf] at hwords
    cases hwords

end ArrayLogic.Formula
