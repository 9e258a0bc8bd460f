import ArrayLogic.Proofs.Text.Spelling

/-! # Places in a text

A lexeme stands at its offset: the text in front of it takes as many bytes, and consists of the
earlier lexemes and of separators. A reader that cannot go on should stop at the first lexeme with
which no acceptable sequence goes on, neither earlier nor later.
-/

namespace ArrayLogic.Text

/-- The number of bytes of a text. -/
def byteSize (text : List Char) : Nat :=
  (String.ofList text).utf8ByteSize

theorem byteSize_append (first second : List Char) :
    byteSize (first ++ second) = byteSize first + byteSize second := by
  rw [byteSize, String.ofList_append, String.utf8ByteSize_append]
  rfl

theorem byteSize_singleton (c : Char) : byteSize [c] = c.utf8Size := by
  rw [byteSize, ← String.singleton_eq_ofList, String.utf8ByteSize_singleton]

theorem byteSize_cons (c : Char) (text : List Char) :
    byteSize (c :: text) = c.utf8Size + byteSize text := by
  rw [← List.singleton_append, byteSize_append, byteSize_singleton]

theorem byteSize_pos {text : List Char} (h : text ≠ []) : 0 < byteSize text := by
  obtain ⟨c, rest, rfl⟩ := List.exists_cons_of_ne_nil h
  rw [byteSize_cons]
  exact Nat.add_pos_left c.utf8Size_pos _

theorem foldl_utf8Size (text : List Char) (offset : Nat) :
    text.foldl (fun place c => place + c.utf8Size) offset = offset + byteSize text := by
  induction text generalizing offset with
  | nil => rfl
  | cons c rest ih => rw [List.foldl_cons, ih, byteSize_cons, Nat.add_assoc]

/-- The piece stands at the offset, and in front of it are the earlier pieces and separators. -/
def StandsAt (text : List Char) (earlier : List (List Char)) (offset : Nat) (piece : List Char) :
    Prop :=
  ∃ front back, text = front ++ (piece ++ back) ∧ Spaced front earlier ∧ offset = byteSize front

namespace StandsAt

variable {text piece : List Char} {earlier : List (List Char)} {offset : Nat}

theorem of_append (piece back : List Char) : StandsAt (piece ++ back) [] 0 piece :=
  ⟨[], back, rfl, .nil, rfl⟩

theorem append (h : StandsAt text earlier offset piece) {front : List Char}
    {pieces : List (List Char)} (hfront : Spaced front pieces) :
    StandsAt (front ++ text) (pieces ++ earlier) (byteSize front + offset) piece := by
  obtain ⟨middle, back, rfl, hmiddle, rfl⟩ := h
  refine ⟨front ++ middle, back, ?_, hfront.append hmiddle, ?_⟩
  · rw [List.append_assoc]
  · rw [byteSize_append]

theorem offset_lt (h : StandsAt text earlier offset piece) (hpiece : piece ≠ []) :
    offset < byteSize text := by
  obtain ⟨front, back, rfl, -, rfl⟩ := h
  have hpos := byteSize_pos hpiece
  rw [byteSize_append, byteSize_append]
  omega

end StandsAt

variable {rule : WordRule} {text : List Char} {words : List (List Char)}

theorem Spells.ne_nil (h : Spells rule text words) : ∀ word ∈ words, word ≠ [] := by
  induction h with
  | nil => simp
  | separator _ _ ih => exact ih
  | sign _ _ _ ih => exact List.forall_mem_cons.mpr ⟨List.cons_ne_nil _ _, ih⟩
  | word _ _ _ _ ih => exact List.forall_mem_cons.mpr ⟨List.cons_ne_nil _ _, ih⟩

/-- A sign is a lexeme of its own. -/
theorem lexemes_sign {c : Char} (hblank : isSeparator c = false) (hc : rule.starts c = false)
    (rest : List Char) (start : Nat) :
    lexemes rule start (c :: rest) = ⟨start, [c]⟩ :: lexemes rule (start + c.utf8Size) rest := by
  simp [lexemes, hblank, WordRule.joins, hc]

/-- Offsets count from where the text starts. -/
theorem Spells.standsAt (hrule : rule.Lawful) (h : Spells rule text words) (start : Nat) {p : Nat}
    {lexeme : Located (List Char)} (hp : (lexemes rule start text)[p]? = some lexeme) :
    ∃ offset, lexeme.offset = start + offset ∧
      StandsAt text (words.take p) offset lexeme.item := by
  induction h generalizing start p with
  | nil => simp [lexemes] at hp
  | @separator c text later hc _ ih =>
      rw [lexemes, if_pos hc] at hp
      obtain ⟨offset, hoffset, hstands⟩ := ih _ hp
      have hmore := hstands.append (.separator hc .nil)
      rw [byteSize_singleton] at hmore
      exact ⟨c.utf8Size + offset, hoffset.trans (Nat.add_assoc _ _ _), hmore⟩
  | @sign c text later hblank hc _ ih =>
      rw [lexemes_sign hblank hc] at hp
      cases p with
      | zero =>
          obtain rfl := Option.some.inj hp
          exact ⟨0, rfl, .of_append [c] text⟩
      | succ p =>
          obtain ⟨offset, hoffset, hstands⟩ := ih _ hp
          have hmore := hstands.append (.singleton [c])
          rw [byteSize_singleton] at hmore
          exact ⟨c.utf8Size + offset, hoffset.trans (Nat.add_assoc _ _ _), hmore⟩
  | @word c word text later hc hword hend _ ih =>
      rw [lexemes_word hrule.starts_not_separator hrule.starts_of_continues hc hword hend,
        foldl_utf8Size] at hp
      cases p with
      | zero =>
          obtain rfl := Option.some.inj hp
          exact ⟨0, rfl, .of_append (c :: word) text⟩
      | succ p =>
          obtain ⟨offset, hoffset, hstands⟩ := ih _ hp
          exact ⟨byteSize (c :: word) + offset, hoffset.trans (Nat.add_assoc _ _ _),
            hstands.append (.singleton (c :: word))⟩

/-- Where no word goes on, the lexemes of the rest follow those of the text in front of it. -/
theorem lexemes_append (hrule : rule.Lawful) (front : List Char) {rest : List Char}
    (hrest : rule.EndsWord rest) (start : Nat) : lexemes rule start (front ++ rest) =
      lexemes rule start front ++ lexemes rule (start + byteSize front) rest := by
  have hspells := spells_lexemes hrule front 0
  generalize (lexemes rule 0 front).map (·.item) = pieces at hspells
  induction hspells generalizing start with
  | nil => rfl
  | @separator c text _ hc _ ih =>
      rw [List.cons_append, lexemes, if_pos hc, lexemes, if_pos hc, ih, byteSize_cons,
        Nat.add_assoc]
  | @sign c text _ hblank hc _ ih =>
      rw [List.cons_append, lexemes_sign hblank hc, lexemes_sign hblank hc, ih, byteSize_cons,
        Nat.add_assoc, List.cons_append]
  | @word c word text _ hc hword hend _ ih =>
      have hblank := hrule.starts_not_separator
      have hstarts := hrule.starts_of_continues
      rw [List.append_assoc, lexemes_word hblank hstarts hc hword (hend.append hrest),
        lexemes_word hblank hstarts hc hword hend, foldl_utf8Size, ih, byteSize_append,
        Nat.add_assoc, List.cons_append]

/-- Offsets grow from lexeme to lexeme, and none lies in front of the start. -/
theorem lexemes_increasing (rule : WordRule) (start : Nat) (text : List Char) :
    (∀ lexeme ∈ lexemes rule start text, start ≤ lexeme.offset) ∧
      (lexemes rule start text).Pairwise (·.offset < ·.offset) := by
  induction text generalizing start with
  | nil => exact ⟨by simp [lexemes], .nil⟩
  | cons c rest ih =>
      obtain ⟨hlater, hpairs⟩ := ih (start + c.utf8Size)
      have hpos := c.utf8Size_pos
      have hstart (lexeme) (h : lexeme ∈ lexemes rule (start + c.utf8Size) rest) :
          start < lexeme.offset := by
        have hle := hlater lexeme h
        omega
      rw [lexemes]
      split
      next => exact ⟨fun lexeme h => (hstart lexeme h).le, hpairs⟩
      next =>
        split
        next =>
          -- The first lexeme is longer now and starts earlier.
          revert hpairs hstart
          cases lexemes rule (start + c.utf8Size) rest with
          | nil => simp [consLexeme]
          | cons first others =>
              intro hpairs hstart
              obtain ⟨-, hothers⟩ := List.forall_mem_cons.mp hstart
              refine ⟨List.forall_mem_cons.mpr ⟨Nat.le_refl _, ?_⟩, ?_⟩
              · exact fun lexeme h => (hothers lexeme h).le
              · exact List.pairwise_cons.mpr ⟨hothers, hpairs.of_cons⟩
        next =>
          refine ⟨List.forall_mem_cons.mpr ⟨Nat.le_refl _, ?_⟩, ?_⟩
          · exact fun lexeme h => (hstart lexeme h).le
          · exact List.pairwise_cons.mpr ⟨hstart, hpairs⟩

/-- The symbols in front of the position can be completed to an accepted sequence, and those up to
the position cannot. If the position is the end, then the sequence itself is not accepted. -/
structure FirstImpossible {σ : Type} (accepted : List σ → Prop) (ss : List σ) (p : Nat) : Prop where
  le_length : p ≤ ss.length
  viable : ∃ later, accepted (ss.take p ++ later)
  impossible : p < ss.length → ∀ later, ¬ accepted (ss.take (p + 1) ++ later)
  rejected : ¬ accepted ss

namespace FirstImpossible

variable {σ : Type} {accepted : List σ → Prop}

theorem of_append {front back : List σ} {s : σ} (hviable : ∃ later, accepted (front ++ later))
    (himpossible : ∀ later, ¬ accepted (front ++ [s] ++ later)) :
    FirstImpossible accepted (front ++ s :: back) front.length := by
  have htake : (front ++ s :: back).take (front.length + 1) = front ++ [s] := by
    rw [List.take_length_add_append]
    rfl
  constructor
  · simp
  · rw [List.take_left]
    exact hviable
  · intro _ later
    rw [htake]
    exact himpossible later
  · have hwhole := himpossible back
    rw [List.append_assoc] at hwhole
    exact hwhole

theorem of_length {ss : List σ} (hviable : ∃ later, accepted (ss ++ later))
    (hrejected : ¬ accepted ss) : FirstImpossible accepted ss ss.length := by
  refine ⟨Nat.le_refl _, ?_, fun hlt => absurd hlt (Nat.lt_irrefl _), hrejected⟩
  rw [List.take_length]
  exact hviable

/-- A reader takes the symbols one by one and concludes at the end. If it always could go on to an
accepted sequence, and stops only where none goes on, then it fails at the first impossible
symbol. -/
theorem exists_of_error {τ ε β : Type} {advance : τ → Located σ → Except ε τ} {start : τ}
    {conclude : τ → Except ε β} {located : List (Located σ)} {e : ε}
    (hviable : ∀ {front : List (Located σ)} {reached : τ},
      front.foldlM advance start = .ok reached → ∃ later, accepted (front.map (·.item) ++ later))
    (hstop : ∀ {front : List (Located σ)} {reached : τ} {s : Located σ},
      front.foldlM advance start = .ok reached → advance reached s = .error e →
        ∀ later, ¬ accepted (front.map (·.item) ++ [s.item] ++ later))
    (hend : ∀ {reached}, located.foldlM advance start = .ok reached →
      conclude reached = .error e → ¬ accepted (located.map (·.item)))
    (h : located.foldlM advance start >>= conclude = .error e) :
    ∃ p, FirstImpossible accepted (located.map (·.item)) p ∧
      ((∃ reached s, located[p]? = some s ∧ advance reached s = .error e) ∨
        p = located.length ∧ ∃ reached, conclude reached = .error e) := by
  rcases bind_eq_error_iff.mp h with hfold | ⟨reached, hreached, hconclude⟩
  · obtain ⟨front, s, back, reached, rfl, hfront, hs⟩ := exists_of_foldlM_eq_error hfold
    have hfirst : FirstImpossible accepted (front.map (·.item) ++ s.item :: back.map (·.item))
        (front.map (·.item)).length := .of_append (hviable hfront) (hstop hfront hs)
    rw [List.length_map] at hfirst
    rw [List.map_append, List.map_cons]
    exact ⟨front.length, hfirst, .inl ⟨reached, s, by simp, hs⟩⟩
  · have hfirst := of_length (hviable hreached) (hend hreached hconclude)
    rw [List.length_map] at hfirst
    exact ⟨located.length, hfirst, .inr ⟨rfl, reached, hconclude⟩⟩

end FirstImpossible

end ArrayLogic.Text
