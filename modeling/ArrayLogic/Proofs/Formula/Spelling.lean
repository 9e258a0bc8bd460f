import ArrayLogic.Proofs.Formula.Reader
import ArrayLogic.Proofs.Text.Spelling

/-! # Reading written expressions

A text writes a sequence of symbols if it spells them with separators anywhere in between. The
formula that is read from a text is the one that the written symbols stand for, and there is none if
they stand for nothing.
-/

namespace ArrayLogic.Formula

open Text (Located Spells WordRule exists_mapM_of_forall₂ indexBound lexemes spells_iff)

theorem lawful_wordRule : wordRule.Lawful :=
  WordRule.lawful_of_separators (by decide) fun _ hc => hc

/-- A word consists of letters and digits. -/
def Symbol.Proper : Symbol → Prop
  | .word w => ∀ c ∈ w.toList, c.isAlphanum = true
  | _ => True

/-- The text writes the symbols. -/
def Written (text : String) (ss : List Symbol) : Prop :=
  Spells wordRule text.toList (ss.map (·.text.toList)) ∧ ∀ s ∈ ss, s.Proper

theorem ofLexeme_text {s : Symbol} (h : s.Proper) (offset : Nat) :
    Symbol.ofLexeme ⟨offset, s.text.toList⟩ = .ok ⟨offset, s⟩ := by
  cases s with
  | word w =>
      have hsign (c : Char) (hc : c.isAlphanum = false) : w.toList ≠ [c] := by
        intro hchars
        have halphanum := h c (by simp [hchars])
        simp [hc] at halphanum
      have hall : w.toList.all Char.isAlphanum = true := List.all_eq_true.mpr h
      unfold Symbol.ofLexeme
      simp only [Symbol.text]
      split
      next hchars => exact absurd hchars (hsign _ (by decide))
      next hchars => exact absurd hchars (hsign _ (by decide))
      next hchars => exact absurd hchars (hsign _ (by decide))
      next hchars => exact absurd hchars (hsign _ (by decide))
      next hchars => exact absurd hchars (hsign _ (by decide))
      next hchars => exact absurd hchars (hsign _ (by decide))
      next => rw [if_pos hall, String.ofList_toList]
  | not => rfl
  | and => rfl
  | or => rfl
  | xor => rfl
  | opening => rfl
  | closing => rfl

theorem text_of_ofLexeme {lexeme : Located (List Char)} {s : Located Symbol}
    (h : Symbol.ofLexeme lexeme = .ok s) :
    lexeme.item = s.item.text.toList ∧ s.item.Proper := by
  unfold Symbol.ofLexeme at h
  split at h
  next hitem =>
    obtain rfl := Except.ok.inj h
    exact ⟨by simp [hitem, Symbol.text], trivial⟩
  next hitem =>
    obtain rfl := Except.ok.inj h
    exact ⟨by simp [hitem, Symbol.text], trivial⟩
  next hitem =>
    obtain rfl := Except.ok.inj h
    exact ⟨by simp [hitem, Symbol.text], trivial⟩
  next hitem =>
    obtain rfl := Except.ok.inj h
    exact ⟨by simp [hitem, Symbol.text], trivial⟩
  next hitem =>
    obtain rfl := Except.ok.inj h
    exact ⟨by simp [hitem, Symbol.text], trivial⟩
  next hitem =>
    obtain rfl := Except.ok.inj h
    exact ⟨by simp [hitem, Symbol.text], trivial⟩
  next =>
    split at h
    next hall =>
      obtain rfl := Except.ok.inj h
      refine ⟨(String.toList_ofList).symm, ?_⟩
      intro c hc
      rw [String.toList_ofList] at hc
      exact List.all_eq_true.mp hall c hc
    next => simp at h

theorem written_of_symbols {text : String} {located : List (Located Symbol)}
    (h : symbols text = .ok located) : Written text (located.map (·.item)) := by
  have hspells : Spells wordRule text.toList _ := (spells_iff lawful_wordRule 0).mpr rfl
  have hpairs := mapM_eq_ok_iff.mp h
  generalize lexemes wordRule 0 text.toList = pieces at hspells hpairs
  suffices hitems : pieces.map (·.item) = (located.map (·.item)).map (·.text.toList) ∧
      ∀ s ∈ located.map (·.item), s.Proper from ⟨hitems.1 ▸ hspells, hitems.2⟩
  clear hspells h
  induction hpairs with
  | nil => simp
  | cons hhead _ ih =>
      obtain ⟨hitem, hproper⟩ := text_of_ofLexeme hhead
      obtain ⟨hitems, hpropers⟩ := ih
      exact ⟨by simp [hitem, hitems], List.forall_mem_cons.mpr ⟨hproper, hpropers⟩⟩

theorem Written.symbols {text : String} {ss : List Symbol} (h : Written text ss) :
    ∃ located, symbols text = .ok located ∧ located.map (·.item) = ss := by
  have hitems : List.Forall₂ (fun s word => s.text.toList = word) ss
      ((lexemes wordRule 0 text.toList).map (·.item)) := by
    rw [(spells_iff lawful_wordRule 0).mp h.1, List.forall₂_map_right_iff, List.forall₂_same]
    exact fun _ _ => rfl
  apply exists_mapM_of_forall₂ _ hitems
  rintro s word hs rfl offset
  exact ofLexeme_text (h.2 s hs) offset

/-- What is read is what the written symbols stand for. -/
theorem denotes_of_read {scope : Scope} {text : String} {f : Formula}
    (h : read scope text = .ok f) :
    ∃ ss, Written text ss ∧ Denotes scope.meaning .disjunction ss f := by
  obtain ⟨located, hsymbols, h⟩ := bind_eq_ok_iff.mp h
  obtain ⟨state, hstate, hconclude⟩ := bind_eq_ok_iff.mp h
  refine ⟨_, written_of_symbols hsymbols, ?_⟩
  have hruns := Runs.of_foldlM hstate
  unfold State.conclude at hconclude
  split at hconclude
  next operand p =>
    obtain rfl := Except.ok.inj hconclude
    exact denotes_of_runs hruns
  next => simp at hconclude

/-- The reader accepts exactly the written expressions that stand for something. -/
theorem read_eq_ok_iff {scope : Scope} (hinputs : scope.inputs ≤ indexBound) {text : String}
    {f : Formula} : read scope text = .ok f ↔
      ∃ ss, Written text ss ∧ Denotes scope.meaning .disjunction ss f := by
  refine ⟨denotes_of_read, ?_⟩
  intro hparts
  obtain ⟨ss, hwritten, hdenotes⟩ := hparts
  obtain ⟨located, hsymbols, rfl⟩ := hwritten.symbols
  obtain ⟨p, operand, hcompletes, hruns⟩ := hdenotes.runs .none rfl []
  refine bind_eq_ok_iff.mpr ⟨located, hsymbols, bind_eq_ok_iff.mpr ⟨_, hruns.foldlM hinputs, ?_⟩⟩
  exact congrArg Except.ok hcompletes

end ArrayLogic.Formula
