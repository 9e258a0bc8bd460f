import ArrayLogic.Formula.Reader
import ArrayLogic.Proofs.Formula.Spelling
import ArrayLogic.Proofs.Source.Rendering
import ArrayLogic.Proofs.Text.Places

/-! # The alphabet of expressions

A source accepts every blank in an expression, but the symbols of a formula are told apart by a few
blanks only, the separators. Every other character that a source accepts belongs to a symbol. The
expression of an equation therefore consists of symbols as long as all its blanks are separators.
Otherwise its first blank that is no separator is rejected.
-/

namespace ArrayLogic

open Text (Located byteSize isBlank isSeparator lexemes)

/-! ## Characters of formulas -/

namespace Formula

/-- Whether a character separates symbols or belongs to one. -/
def isKnownChar (c : Char) : Bool :=
  isSeparator c || c.isAlphanum || ['~', '&', '|', '^', '(', ')'].contains c

theorem ofLexeme_of_known {lexeme : Located (List Char)}
    (hpiece : wordRule.IsSign lexeme.item ∨ wordRule.IsWord lexeme.item)
    (hknown : ∀ c ∈ lexeme.item, isKnownChar c = true) : ∃ s, Symbol.ofLexeme lexeme = .ok s := by
  rcases lexeme with ⟨offset, item⟩
  rcases hpiece with ⟨c, rfl, hblank, hc⟩ | ⟨c, word, rfl, hc, hword⟩
  · have hc : c.isAlphanum = false := hc
    have hknown := hknown c List.mem_cons_self
    simp only [isKnownChar, hblank, hc, Bool.false_or, List.contains_iff_mem, List.mem_cons,
      List.not_mem_nil, or_false] at hknown
    rcases hknown with rfl | rfl | rfl | rfl | rfl | rfl <;> exact ⟨_, rfl⟩
  · have hproper : (Symbol.word (String.ofList (c :: word))).Proper := by
      intro d hd
      rw [String.toList_ofList] at hd
      rcases List.mem_cons.mp hd with rfl | hd
      · exact hc
      · exact hword d hd
    have hread := ofLexeme_text hproper offset
    rw [Symbol.text, String.toList_ofList] at hread
    exact ⟨_, hread⟩

theorem ofLexeme_of_unknown {c : Char} (hc : isKnownChar c = false) (offset : Nat) :
    Symbol.ofLexeme ⟨offset, [c]⟩ =
      .error (.unexpected ⟨offset, some (String.singleton c), .symbol⟩) := by
  have hsign (sign : Char) (hsign : isKnownChar sign = true) : [c] ≠ [sign] := by
    intro hsame
    obtain ⟨rfl, -⟩ := List.cons.inj hsame
    simp [hsign] at hc
  have halphanum : c.isAlphanum = false := by
    simp only [isKnownChar, Bool.or_eq_false_iff] at hc
    exact hc.1.2
  unfold Symbol.ofLexeme
  dsimp only
  split
  next hitem => exact absurd hitem (hsign _ (by decide))
  next hitem => exact absurd hitem (hsign _ (by decide))
  next hitem => exact absurd hitem (hsign _ (by decide))
  next hitem => exact absurd hitem (hsign _ (by decide))
  next hitem => exact absurd hitem (hsign _ (by decide))
  next hitem => exact absurd hitem (hsign _ (by decide))
  next => rw [if_neg (by simp [halphanum]), String.singleton_eq_ofList]

theorem exists_ofLexeme_of_mem {cs : List Char} (h : ∀ c ∈ cs, isKnownChar c = true)
    {start : Nat} {lexeme : Located (List Char)} (hlexeme : lexeme ∈ lexemes wordRule start cs) :
    ∃ s, Symbol.ofLexeme lexeme = .ok s := by
  obtain ⟨hpiece, hsubset⟩ := (Text.spells_lexemes lawful_wordRule cs start).isSign_or_isWord _
    (List.mem_map_of_mem hlexeme)
  exact ofLexeme_of_known hpiece fun c hc => h c (hsubset hc)

theorem exists_symbols {text : String} (h : ∀ c ∈ text.toList, isKnownChar c = true) :
    ∃ located, symbols text = .ok located :=
  exists_mapM_eq_ok fun _ => exists_ofLexeme_of_mem h

/-- The first unknown character is reported. -/
theorem symbols_of_unknown {text : String} {front back : List Char} {c : Char}
    (htext : text.toList = front ++ c :: back) (hfront : ∀ d ∈ front, isKnownChar d = true)
    (hc : isKnownChar c = false) : symbols text =
      .error (.unexpected ⟨byteSize front, some (String.singleton c), .symbol⟩) := by
  have hclasses := hc
  simp only [isKnownChar, Bool.or_eq_false_iff] at hclasses
  obtain ⟨⟨hblank, hstarts⟩, -⟩ := hclasses
  have hend : wordRule.EndsWord (c :: back) := hstarts
  rw [symbols, htext, Text.lexemes_append lawful_wordRule front hend,
    Text.lexemes_sign hblank hstarts, Nat.zero_add]
  exact mapM_eq_error (fun _ => exists_ofLexeme_of_mem hfront) (ofLexeme_of_unknown hc _)

/-! ## Rejected characters -/

section

variable {scope : Scope} {place : Nat} {found : Option String}

theorem Scope.resolve_ne_symbol {offset : Nat} {word : String} :
    scope.resolve offset word ≠ .error (.unexpected ⟨place, found, .symbol⟩) := by
  intro h
  unfold resolve at h
  dsimp only at h
  split at h
  next => cases h
  next => cases h
  next =>
    split at h
    next => split at h <;> simp at h
    next => simp at h
  next =>
    split at h
    next => split at h <;> simp at h
    next => simp at h

theorem State.expectation_ne_symbol (state : State) : state.expectation ≠ .symbol := by
  unfold expectation
  split <;> simp

theorem State.advance_ne_symbol {state : State} {s : Located Symbol} :
    state.advance scope s ≠ .error (.unexpected ⟨place, found, .symbol⟩) := by
  intro h
  unfold advance at h
  split at h
  next => cases h
  next => cases h
  next word _ =>
    cases hresolve : scope.resolve s.offset word with
    | ok f => simp [hresolve, Except.map] at h
    | error e =>
        rw [hresolve] at h
        obtain rfl := Except.error.inj h
        exact Scope.resolve_ne_symbol hresolve
  next => cases h
  next => cases h
  next => cases h
  next => cases h
  next => simp [State.expectation_ne_symbol] at h

theorem State.conclude_ne_symbol {state : State} {offset : Nat} :
    state.conclude offset ≠ .error (.unexpected ⟨place, found, .symbol⟩) := by
  intro h
  unfold conclude at h
  split at h
  next => cases h
  next => simp [State.expectation_ne_symbol] at h

/-- No character is rejected once the text has been taken apart. -/
theorem read_ne_symbol {text : String} {located : List (Located Symbol)}
    (hsymbols : symbols text = .ok located) :
    read scope text ≠ .error (.unexpected ⟨place, found, .symbol⟩) := by
  intro h
  rw [read, hsymbols] at h
  change located.foldlM (State.advance scope) .start >>= _ = _ at h
  rcases bind_eq_error_iff.mp h with hfold | ⟨state, -, hconclude⟩
  · obtain ⟨front, s, back, reached, -, -, hadvance⟩ := exists_of_foldlM_eq_error hfold
    exact State.advance_ne_symbol hadvance
  · exact State.conclude_ne_symbol hconclude

end

end Formula

/-! ## Blanks that separate nothing -/

namespace Text

/-- Whether a character is a blank but no separator. -/
def isStray (c : Char) : Bool :=
  isBlank c && !isSeparator c

/-- The first stray blank of a text and its place. -/
def FirstStray (cs : List Char) (offset : Nat) (c : Char) : Prop :=
  ∃ front back, cs = front ++ c :: back ∧ (∀ d ∈ front, isStray d = false) ∧
    isStray c = true ∧ offset = byteSize front

theorem exists_firstStray (cs : List Char) :
    (∀ c ∈ cs, isStray c = false) ∨ ∃ offset c, FirstStray cs offset c := by
  obtain ⟨front, back, hfront, hback, rfl⟩ := exists_append_eq (!isStray ·) cs
  simp only [Bool.not_eq_true', Bool.not_eq_false'] at hfront hback
  cases back with
  | nil => exact .inl (by simpa using hfront)
  | cons c back => exact .inr ⟨_, c, front, back, rfl, hfront, hback c rfl, rfl⟩

theorem isBlank_eq_false_of_isAlphanum {c : Char} (h : c.isAlphanum = true) :
    isBlank c = false := by
  have hrange : (65 ≤ c.toNat ∧ c.toNat ≤ 90) ∨ (97 ≤ c.toNat ∧ c.toNat ≤ 122) ∨
      (48 ≤ c.toNat ∧ c.toNat ≤ 57) := by
    rcases Bool.or_eq_true_iff.mp h with hletter | hdigit
    · rcases Bool.or_eq_true_iff.mp hletter with hupper | hlower
      · exact .inl (of_decide_eq_true hupper)
      · obtain ⟨hfirst, hlast⟩ := Bool.and_eq_true_iff.mp hlower
        exact .inr (.inl ⟨of_decide_eq_true hfirst, of_decide_eq_true hlast⟩)
    · obtain ⟨hfirst, hlast⟩ := Bool.and_eq_true_iff.mp hdigit
      exact .inr (.inr ⟨of_decide_eq_true hfirst, of_decide_eq_true hlast⟩)
  simp only [isBlank, Bool.or_eq_false_iff, Bool.and_eq_false_imp, decide_eq_true_eq,
    decide_eq_false_iff_not, beq_eq_false_iff_ne]
  omega

end Text

open Text (FirstStray isStray)

namespace Source

/-- The characters of the equation language that are unknown in formulas are the stray blanks. -/
theorem isKnownChar_of_isSafeChar {c : Char} (h : isSafeChar c = true) :
    Formula.isKnownChar c = !isStray c := by
  cases hblank : isBlank c with
  | true =>
      have halphanum : c.isAlphanum = false := by
        rw [Bool.eq_false_iff]
        intro halphanum
        simp [Text.isBlank_eq_false_of_isAlphanum halphanum] at hblank
      have hsign : ['~', '&', '|', '^', '(', ')'].contains c = false := by
        rw [Bool.eq_false_iff]
        intro hsign
        simp only [List.contains_iff_mem, List.mem_cons, List.not_mem_nil, or_false] at hsign
        rcases hsign with rfl | rfl | rfl | rfl | rfl | rfl <;> cases hblank
      rw [Formula.isKnownChar, halphanum, hsign, isStray, hblank]
      simp
  | false =>
      simp only [isSafeChar, hblank, Bool.false_or, Bool.or_eq_true, List.contains_iff_mem,
        List.mem_cons, List.not_mem_nil, or_false] at h
      rw [isStray, hblank]
      rcases h with hdigit | rfl | rfl | rfl | rfl | rfl | rfl | rfl | rfl | rfl
      · have halphanum : c.isAlphanum = true := Bool.or_eq_true_iff.mpr (.inr hdigit)
        simp [Formula.isKnownChar, halphanum]
      all_goals decide

/-- The text consists of symbols up to its first stray blank, and no other character of it is ever
rejected. -/
structure RejectsStrayOnly (text : String) : Prop where
  symbols_iff : (∃ located, Formula.symbols text = .ok located) ↔
    ∀ c ∈ text.toList, isStray c = false
  rejects_iff : ∀ scope offset found,
    Formula.read scope text = .error (.unexpected ⟨offset, found, .symbol⟩) ↔
      ∃ c, FirstStray text.toList offset c ∧ found = some (String.singleton c)

section

variable {text : String}

theorem exists_symbols_of_isSafe (hsafe : isSafe text.toList = true)
    (hstray : ∀ c ∈ text.toList, isStray c = false) :
    ∃ located, Formula.symbols text = .ok located := by
  refine Formula.exists_symbols fun c hc => ?_
  rw [isKnownChar_of_isSafeChar (isSafeChar_of_isSafe hsafe c hc), hstray c hc]
  rfl

theorem symbols_of_firstStray (hsafe : isSafe text.toList = true) {offset : Nat} {c : Char}
    (hfirst : FirstStray text.toList offset c) : Formula.symbols text =
      .error (.unexpected ⟨offset, some (String.singleton c), .symbol⟩) := by
  have hsafe := isSafeChar_of_isSafe hsafe
  obtain ⟨front, back, htext, hfront, hc, rfl⟩ := hfirst
  rw [htext, List.forall_mem_append, List.forall_mem_cons] at hsafe
  obtain ⟨hsafeFront, hsafeChar, -⟩ := hsafe
  refine Formula.symbols_of_unknown htext (fun d hd => ?_) ?_
  · rw [isKnownChar_of_isSafeChar (hsafeFront d hd), hfront d hd]
    rfl
  · rw [isKnownChar_of_isSafeChar hsafeChar, hc]
    rfl

theorem rejectsStrayOnly (hsafe : isSafe text.toList = true) : RejectsStrayOnly text := by
  have hread (scope : Formula.Scope) {offset : Nat} {c : Char}
      (hfirst : FirstStray text.toList offset c) : Formula.read scope text =
        .error (.unexpected ⟨offset, some (String.singleton c), .symbol⟩) := by
    rw [Formula.read, symbols_of_firstStray hsafe hfirst]
    rfl
  constructor
  · refine ⟨?_, exists_symbols_of_isSafe hsafe⟩
    rintro ⟨located, hsymbols⟩
    rcases Text.exists_firstStray text.toList with hnone | ⟨offset, c, hfirst⟩
    · exact hnone
    · rw [symbols_of_firstStray hsafe hfirst] at hsymbols
      cases hsymbols
  · intro scope offset found
    constructor
    · intro hreject
      rcases Text.exists_firstStray text.toList with hnone | ⟨place, c, hfirst⟩
      · obtain ⟨located, hsymbols⟩ := exists_symbols_of_isSafe hsafe hnone
        exact absurd hreject (Formula.read_ne_symbol hsymbols)
      · rw [hread scope hfirst] at hreject
        injection hreject with hreject
        injection hreject with hreject
        injection hreject with hoffset hfound
        exact ⟨c, hoffset ▸ hfirst, hfound.symm⟩
    · rintro ⟨c, hfirst, rfl⟩
      exact hread scope hfirst

end

theorem isSafe_of_read {text : String} {es : List Equation} (h : read text = .ok es) :
    ∀ e ∈ es, isSafe e.expression.toList = true := by
  have hholds := (read_eq_ok_iff_of_consists (Text.Consists.of_lines text.toList)).mp h
  exact fun e he => (hholds.isSide e he).2.safe

/-- In a text of the equation language, and so in every expression of a source, no scope makes any
character but the first stray blank rejected. -/
theorem expressions_reject_stray_only (text : String) :
    (isSafe text.toList = true → RejectsStrayOnly text) ∧
      ∀ es, read text = .ok es → ∀ e ∈ es, RejectsStrayOnly e.expression := by
  constructor
  · exact rejectsStrayOnly
  · intro es hread e he
    exact rejectsStrayOnly (isSafe_of_read hread e he)

theorem expressions_reject_stray_only_blanks :
    (∃ located, Formula.symbols "~(I0 ^\tT1)" = .ok located) ∧
      read "# stray blanks\nO0 = I0\t|\u2003~\u000bI1 # end" =
        .ok [⟨"O0", "I0\t|\u2003~\u000bI1", 2⟩] ∧
      ∀ scope, Formula.read scope "I0\t|\u2003~\u000bI1" =
        .error (.unexpected ⟨4, some "\u2003", .symbol⟩) := by
  have hread : read "# stray blanks\nO0 = I0\t|\u2003~\u000bI1 # end" =
      .ok [⟨"O0", "I0\t|\u2003~\u000bI1", 2⟩] := by decide +kernel
  have hfirst : FirstStray "I0\t|\u2003~\u000bI1".toList 4 '\u2003' := by
    refine ⟨['I', '0', '\t', '|'], ['~', '\u000b', 'I', '1'], rfl, ?_, rfl, rfl⟩
    simp [isStray, isBlank, isSeparator]
  refine ⟨?_, hread, fun scope => ?_⟩
  · refine ((expressions_reject_stray_only _).1 (by decide)).symbols_iff.mpr ?_
    simp [isStray, isBlank, isSeparator]
  · exact (((expressions_reject_stray_only _).2 _ hread _ List.mem_cons_self).rejects_iff
      scope 4 _).mpr ⟨'\u2003', hfirst, rfl⟩

/-- A no-break space is a character of the equation language, but not one of formulas. -/
theorem noBreakSpace_accepted_then_rejected :
    read "O0 = I0\u00a0& I1" = .ok [⟨"O0", "I0\u00a0& I1", 1⟩] ∧
      ∀ scope, Formula.read scope "I0\u00a0& I1" =
        .error (.unexpected ⟨2, some "\u00a0", .symbol⟩) := by
  have hsymbols : Formula.symbols "I0\u00a0& I1" =
      .error (.unexpected ⟨2, some "\u00a0", .symbol⟩) := by decide +kernel
  refine ⟨by decide +kernel, fun scope => ?_⟩
  rw [Formula.read, hsymbols]
  rfl

end Source

end ArrayLogic
