import ArrayLogic.NormalForm.Symbol
import ArrayLogic.Proofs.Literal
import ArrayLogic.Proofs.Text.Spelling

/-! # Spelling of normal forms

A symbol of a normal form can be written in several ways: keywords in any mixture of cases, literals
with leading zeros. A text writes symbols if it consists of words for them with separators anywhere
in between. The words are told apart again as long as no two of them are neighbours.
-/

namespace ArrayLogic.NormalForm

open Text (Located Spaced WordRule exists_mapM_of_forall₂ lexemes spells_iff spells_lexemes)

theorem lawful_wordRule : wordRule.Lawful :=
  WordRule.lawful_of_separators (by decide) fun _ hc => Bool.or_eq_true_iff.mpr (.inr hc)

/-! ## Keywords -/

/-- The word consists of the letters, each of them small or capital. -/
def AnyCase (letters word : List Char) : Prop :=
  List.Forall₂ (fun letter c => c = letter ∨ c = letter.toUpper) letters word

theorem toLower_eq_iff {c letter : Char} (h : letter.isLower = true) :
    c.toLower = letter ↔ c = letter ∨ c = letter.toUpper := by
  obtain ⟨hfirst, hlast⟩ := Bool.and_eq_true_iff.mp h
  have hletter : 97 ≤ letter.val.toNat ∧ letter.val.toNat ≤ 122 :=
    ⟨of_decide_eq_true hfirst, of_decide_eq_true hlast⟩
  have hbound := c.val.toNat_lt
  -- Both changes of case are additions modulo the size of a machine word.
  have hcapital : ('A'.val - 'a'.val).toNat = 4294967264 := rfl
  have hsmall : ('a'.val - 'A'.val).toNat = 32 := rfl
  have hupper : letter.toUpper = ⟨letter.val + ('A'.val - 'a'.val), _⟩ := dif_pos hletter
  by_cases hc : 65 ≤ c.val.toNat ∧ c.val.toNat ≤ 90
  · have hlower : c.toLower = ⟨c.val + ('a'.val - 'A'.val), _⟩ := dif_pos hc
    simp only [Char.ext_iff, hlower, hupper, ← UInt32.toNat_inj, UInt32.toNat_add, hcapital, hsmall]
    omega
  · have hlower : c.toLower = c := dif_neg hc
    simp only [Char.ext_iff, hlower, hupper, ← UInt32.toNat_inj, UInt32.toNat_add, hcapital]
    omega

theorem map_toLower_eq_iff {letters word : List Char} (h : letters.all Char.isLower = true) :
    word.map Char.toLower = letters ↔ AnyCase letters word := by
  induction letters generalizing word with
  | nil => simp [AnyCase]
  | cons letter letters ih =>
      rw [List.all_cons, Bool.and_eq_true] at h
      cases word with
      | nil => simp [AnyCase]
      | cons c word =>
          rw [List.map_cons, List.cons.injEq, toLower_eq_iff h.1, ih h.2, AnyCase, AnyCase,
            List.forall₂_cons]

/-! ## Written symbols -/

/-- The word writes the symbol. -/
inductive Symbol.Written : Symbol → List Char → Prop
  | and {word : List Char} (h : AnyCase ['a', 'n', 'd'] word) : Written .and word
  | or {word : List Char} (h : AnyCase ['o', 'r'] word) : Written .or word
  | literal {l : Literal} {word : List Char} (h : l.Written word) : Written (.literal l) word
  | zero : Written (.constant false) ['0']
  | one : Written (.constant true) ['1']
  | opening : Written .opening ['(']
  | closing : Written .closing [')']
  | comma : Written .comma [',']

/-- Whether a symbol is a single character that stands for itself. -/
def Symbol.isSign : Symbol → Bool
  | .opening => true
  | .closing => true
  | .comma => true
  | _ => false

theorem AnyCase.continuesWord {letters word : List Char} (h : AnyCase letters word)
    (hletters : letters.all (fun letter =>
      continuesWord letter && continuesWord letter.toUpper) = true) :
    ∀ c ∈ word, continuesWord c = true := by
  induction h with
  | nil => simp
  | cons hc _ ih =>
      rw [List.all_cons, Bool.and_eq_true, Bool.and_eq_true] at hletters
      refine List.forall_mem_cons.mpr ⟨?_, ih hletters.2⟩
      rcases hc with rfl | rfl
      · exact hletters.1.1
      · exact hletters.1.2

theorem isWord_of_continuesWord {word : List Char} (hne : word ≠ [])
    (h : ∀ c ∈ word, continuesWord c = true) : wordRule.IsWord word := by
  obtain ⟨c, rest, rfl⟩ := List.exists_cons_of_ne_nil hne
  obtain ⟨hc, hrest⟩ := List.forall_mem_cons.mp h
  exact ⟨c, rest, rfl, lawful_wordRule.starts_of_continues c hc, hrest⟩

theorem continuesWord_of_written {s : Signal} {word : List Char} (h : s.Written word) :
    ∀ c ∈ word, continuesWord c = true := by
  obtain ⟨digits, rfl, -, hdigits, -⟩ := h
  refine List.forall_mem_cons.mpr ⟨by decide, ?_⟩
  intro c hc
  simp [continuesWord, Char.isAlphanum, hdigits c hc]

theorem isWord_of_written {l : Literal} {word : List Char} (h : l.Written word) :
    wordRule.IsWord word := by
  cases h with
  | direct hs =>
      refine isWord_of_continuesWord ?_ (continuesWord_of_written hs)
      obtain ⟨digits, rfl, -⟩ := hs
      exact List.cons_ne_nil _ _
  | complement hs => exact ⟨'~', _, rfl, by decide, continuesWord_of_written hs⟩

theorem ofLexeme_of_isWord {word : List Char} (h : wordRule.IsWord word) (offset : Nat) :
    Symbol.ofLexeme ⟨offset, word⟩ = (Symbol.ofWord word).map (⟨offset, ·⟩) := by
  obtain ⟨c, rest, rfl, hc, hrest⟩ := h
  have hall : (c :: rest).all startsWord = true := by
    rw [List.all_cons, Bool.and_eq_true, List.all_eq_true]
    exact ⟨hc, fun d hd => lawful_wordRule.starts_of_continues d (hrest d hd)⟩
  have hsign (sign : Char) (hstarts : startsWord sign = false) : c :: rest ≠ [sign] := by
    intro hword
    obtain ⟨rfl, -⟩ := List.cons.inj hword
    exact absurd hc (Bool.eq_false_iff.mp hstarts)
  unfold Symbol.ofLexeme
  split
  next hitem => exact absurd hitem (hsign '(' (by decide))
  next hitem => exact absurd hitem (hsign ')' (by decide))
  next hitem => exact absurd hitem (hsign ',' (by decide))
  next => rw [if_pos hall]

namespace Symbol.Written

variable {s : Symbol} {word : List Char}

theorem isSign (h : s.Written word) (hs : s.isSign = true) : wordRule.IsSign word := by
  cases h with
  | opening | closing | comma => exact ⟨_, rfl, by decide, by decide⟩
  | and | or | literal | zero | one => simp [Symbol.isSign] at hs

theorem isWord (h : s.Written word) (hs : s.isSign = false) : wordRule.IsWord word := by
  cases h with
  | and h | or h =>
      refine isWord_of_continuesWord ?_ (h.continuesWord (by decide))
      rintro rfl
      cases h
  | literal h => exact isWord_of_written h
  | zero | one => exact ⟨_, [], rfl, by decide, by simp⟩
  | opening | closing | comma => simp [Symbol.isSign] at hs

/-- A literal starts with a character that no keyword and no constant starts with. -/
theorem ofWord_eq_ok (h : s.Written word) (hs : s.isSign = false) :
    Symbol.ofWord word = .ok s := by
  unfold Symbol.ofWord
  cases h with
  | and h => rw [if_pos ((map_toLower_eq_iff (by decide)).mpr h)]
  | or h =>
      have hlower : word.map Char.toLower = ['o', 'r'] := (map_toLower_eq_iff (by decide)).mpr h
      simp [hlower]
  | literal h =>
      have hread := Literal.read?_eq_some_iff.mpr h
      cases h with
      | direct hs =>
          obtain ⟨digits, rfl, -⟩ := hs
          simp [hread, show 'I'.toLower = 'i' by decide]
      | complement hs => simp [hread, show '~'.toLower = '~' by decide]
  | zero | one => rfl
  | opening | closing | comma => simp [Symbol.isSign] at hs

theorem of_ofWord (h : Symbol.ofWord word = .ok s) : s.Written word := by
  unfold Symbol.ofWord at h
  split at h
  next hlower =>
    obtain rfl := Except.ok.inj h
    exact .and ((map_toLower_eq_iff (by decide)).mp hlower)
  split at h
  next hlower =>
    obtain rfl := Except.ok.inj h
    exact .or ((map_toLower_eq_iff (by decide)).mp hlower)
  split at h
  next hword =>
    obtain rfl := Except.ok.inj h
    rw [hword]
    exact .zero
  split at h
  next hword =>
    obtain rfl := Except.ok.inj h
    rw [hword]
    exact .one
  split at h
  next l hread =>
    obtain rfl := Except.ok.inj h
    exact .literal (Literal.read?_eq_some_iff.mp hread)
  next => simp at h

theorem ofLexeme_eq_ok (h : s.Written word) (offset : Nat) :
    Symbol.ofLexeme ⟨offset, word⟩ = .ok ⟨offset, s⟩ := by
  cases hs : s.isSign with
  | true =>
      cases h with
      | opening | closing | comma => rfl
      | and | or | literal | zero | one => simp [Symbol.isSign] at hs
  | false =>
      rw [ofLexeme_of_isWord (h.isWord hs), h.ofWord_eq_ok hs]
      rfl

theorem of_ofLexeme {lexeme : Located (List Char)} {found : Located Symbol}
    (h : Symbol.ofLexeme lexeme = .ok found) : found.item.Written lexeme.item := by
  unfold Symbol.ofLexeme at h
  split at h
  next hitem =>
    obtain rfl := Except.ok.inj h
    rw [hitem]
    exact .opening
  next hitem =>
    obtain rfl := Except.ok.inj h
    rw [hitem]
    exact .closing
  next hitem =>
    obtain rfl := Except.ok.inj h
    rw [hitem]
    exact .comma
  next =>
    split at h
    · obtain ⟨s, hs, rfl⟩ := map_eq_ok_iff.mp h
      exact .of_ofWord hs
    · simp at h

end Symbol.Written

/-! ## Texts -/

/-- The text writes the symbols, with separators anywhere around them. -/
def Writes (text : List Char) (found : List Symbol) : Prop :=
  ∃ words, Spaced text words ∧ List.Forall₂ Symbol.Written found words

/-- Of two neighbours at least one is a sign. -/
def Apart (found : List Symbol) : Prop :=
  found.IsChain fun s t => s.isSign = true ∨ t.isSign = true

theorem written_of_symbols {text : String} {located : List (Located Symbol)}
    (h : symbols text = .ok located) : List.Forall₂ Symbol.Written (located.map (·.item))
      ((lexemes wordRule 0 text.toList).map (·.item)) := by
  rw [List.forall₂_map_left_iff, List.forall₂_map_right_iff]
  exact (mapM_eq_ok_iff.mp h).flip.imp fun _ _ => Symbol.Written.of_ofLexeme

theorem writes_of_symbols {text : String} {located : List (Located Symbol)}
    (h : symbols text = .ok located) : Writes text.toList (located.map (·.item)) :=
  ⟨_, (spells_lexemes lawful_wordRule text.toList 0).spaced, written_of_symbols h⟩

theorem isSign_or_isWord_of_mem {found : List Symbol} {words : List (List Char)}
    (h : List.Forall₂ Symbol.Written found words) :
    ∀ word ∈ words, wordRule.IsSign word ∨ wordRule.IsWord word := by
  induction h with
  | nil => simp
  | @cons s word _ _ hword _ ih =>
      refine List.forall_mem_cons.mpr ⟨?_, ih⟩
      cases hs : s.isSign with
      | true => exact .inl (hword.isSign hs)
      | false => exact .inr (hword.isWord hs)

theorem Apart.words {found : List Symbol} {words : List (List Char)} (h : Apart found)
    (hwritten : List.Forall₂ Symbol.Written found words) :
    words.IsChain fun first second => wordRule.IsSign first ∨ wordRule.IsSign second := by
  unfold Apart at h
  induction hwritten with
  | nil => exact .nil
  | cons hword hlater ih =>
      rw [List.isChain_cons] at h ⊢
      refine ⟨?_, ih h.2⟩
      intro second hsecond
      cases hlater with
      | nil => simp at hsecond
      | cons hnext _ =>
          obtain rfl := Option.some.inj hsecond
          exact (h.1 _ rfl).imp hword.isSign hnext.isSign

/-- Symbols that are kept apart are found again. -/
theorem Writes.symbols {text : String} {found : List Symbol} (h : Writes text.toList found)
    (hapart : Apart found) :
    ∃ located, symbols text = .ok located ∧ located.map (·.item) = found := by
  obtain ⟨words, hspaced, hwritten⟩ := h
  have hspells := hspaced.spells lawful_wordRule (isSign_or_isWord_of_mem hwritten)
    (hapart.words hwritten)
  obtain rfl := (spells_iff lawful_wordRule 0).mp hspells
  exact exists_mapM_of_forall₂ (fun s word _ hs => hs.ofLexeme_eq_ok) hwritten

theorem Symbol.Written.writes {s : Symbol} {word : List Char} (h : s.Written word) :
    Writes word [s] :=
  ⟨[word], .singleton word, .cons h .nil⟩

theorem Writes.append {first second : List Char} {earlier later : List Symbol}
    (hfirst : Writes first earlier) (hsecond : Writes second later) :
    Writes (first ++ second) (earlier ++ later) := by
  obtain ⟨words, hspaced, hwritten⟩ := hfirst
  obtain ⟨words', hspaced', hwritten'⟩ := hsecond
  exact ⟨words ++ words', hspaced.append hspaced', List.rel_append hwritten hwritten'⟩

end ArrayLogic.NormalForm

/-! ## Written forms -/

namespace ArrayLogic

open NormalForm (Symbol)

/-- The symbols of a written product. -/
def Product.spelling : Product → List Symbol
  | literal l => [.literal l]
  | group [] => [.constant true]
  | group literals =>
      .and :: .opening :: [.comma].intercalate (literals.map fun l => [.literal l]) ++ [.closing]

theorem Product.spelling_group {literals : List Literal} (h : literals ≠ []) :
    (group literals).spelling =
      .and :: .opening :: [.comma].intercalate (literals.map fun l => [.literal l]) ++
        [.closing] := by
  obtain ⟨l, rest, rfl⟩ := List.exists_cons_of_ne_nil h
  rfl

namespace NormalForm

/-- The symbols of a written normal form. -/
def spelling : NormalForm → List Symbol
  | constant value => [.constant value]
  | product p => p.spelling
  | sum products =>
      .or :: .opening :: [.comma].intercalate (products.map Product.spelling) ++ [.closing]

theorem writes_separated {α : Type} {text : α → List Char} {found : α → List Symbol}
    {parts : List α} (h : ∀ part ∈ parts, Writes (text part) (found part)) :
    Writes ([',', ' '].intercalate (parts.map text)) ([.comma].intercalate (parts.map found)) := by
  have hcomma : Writes [',', ' '] [.comma] :=
    ⟨[[',']], .piece [','] (.separator (by decide) .nil), .cons .comma .nil⟩
  induction parts with
  | nil => exact ⟨[], .nil, .nil⟩
  | cons part others ih =>
      obtain ⟨hpart, hothers⟩ := List.forall_mem_cons.mp h
      cases others with
      | nil => simpa using hpart
      | cons second others =>
          rw [List.map_cons, List.map_cons, List.map_cons, List.map_cons,
            List.intercalate_cons_cons, List.intercalate_cons_cons]
          exact (hpart.append hcomma).append (ih hothers)

/-- A keyword with its operands in brackets. -/
theorem writes_bracketed {keyword : Symbol} {word text : List Char} {found : List Symbol}
    (hkeyword : keyword.Written word) (h : Writes text found) :
    Writes (word ++ ['('] ++ text ++ [')']) (keyword :: .opening :: found ++ [.closing]) :=
  ((hkeyword.writes.append Symbol.Written.opening.writes).append h).append
    Symbol.Written.closing.writes

theorem written_chars (l : Literal) : (Symbol.literal l).Written l.chars :=
  .literal (Literal.read?_eq_some_iff.mp l.read?_chars)

theorem writes_product (p : Product) : Writes p.chars p.spelling := by
  cases p with
  | literal l => exact (written_chars l).writes
  | group literals =>
      cases literals with
      | nil => exact Symbol.Written.one.writes
      | cons l rest =>
          have hand : Symbol.and.Written ['A', 'n', 'd'] := .of_ofWord rfl
          exact writes_bracketed hand (writes_separated fun l _ => (written_chars l).writes)

/-- The written form of a normal form writes its symbols. -/
theorem writes_chars (form : NormalForm) : Writes form.chars form.spelling := by
  cases form with
  | constant value =>
      cases value
      · exact Symbol.Written.zero.writes
      · exact Symbol.Written.one.writes
  | product p => exact writes_product p
  | sum products =>
      have hor : Symbol.or.Written ['O', 'r'] := .of_ofWord rfl
      exact writes_bracketed hor (writes_separated fun p _ => writes_product p)

end NormalForm

end ArrayLogic
