import ArrayLogic.Proofs.NormalForm.Rendering
import ArrayLogic.Proofs.Text.Places

/-! # Failures of the reader of normal forms

A text of symbols that is no normal form has a first symbol with which no normal form goes on, or it
ends too early. The report is about this place and no other: symbols differ in their offsets, and
different symbols have different descriptions.
-/

namespace ArrayLogic.NormalForm

open Text (FirstImpossible Located Mismatch StandsAt byteSize lexemes)

/-! ## Accepted sequences -/

/-- Some text of the symbols is read. -/
def Accepted (ss : List Symbol) : Prop :=
  ∃ text located form, symbols text = .ok located ∧ located.map (·.item) = ss ∧
    read text = .ok form

theorem accepted_iff {ss : List Symbol} :
    Accepted ss ↔ ∃ form, State.start.run ss = some (.finished form) := by
  constructor
  · rintro ⟨text, located, form, hsymbols, rfl, hread⟩
    obtain ⟨hproper, found, hfound, hitems⟩ := symbols_of_read hread
    obtain rfl := Except.ok.inj (hsymbols.symm.trans hfound)
    exact ⟨form, State.run_eq_finished_iff.mpr ⟨hproper, hitems.symm⟩⟩
  · rintro ⟨form, hrun⟩
    obtain ⟨hproper, rfl⟩ := State.run_eq_finished_iff.mp hrun
    have hread := read_text hproper
    obtain ⟨-, located, hsymbols, hitems⟩ := symbols_of_read hread
    exact ⟨form.text, located, form, hsymbols, hitems, hread⟩

namespace State

/-- A complete product is followed by the end, or by the bracket that closes its sum. -/
theorem exists_run_afterProduct (p : Product) (place : Place) :
    ∃ later form, (afterProduct p place).run later = some (finished form) := by
  cases place with
  | none => exact ⟨[], _, rfl⟩
  | some earlier => exact ⟨[.closing], _, rfl⟩

/-- What has been read can be completed from any state. -/
theorem exists_run_eq_finished (state : State) :
    ∃ later form, state.run later = some (finished form) := by
  let l : Literal := (Signal.ofIndex 0).literal .direct
  cases state with
  | start => exact ⟨[.constant false], _, rfl⟩
  | sumOpening => exact ⟨[.opening, .literal l, .closing], _, rfl⟩
  | product earlier => exact ⟨[.literal l, .closing], _, rfl⟩
  | groupOpening place =>
      obtain ⟨later, form, hrun⟩ := exists_run_afterProduct (.group [l]) place
      exact ⟨.opening :: .literal l :: .closing :: later, form, hrun⟩
  | literal place earlier =>
      obtain ⟨later, form, hrun⟩ := exists_run_afterProduct (.group (l :: earlier).reverse) place
      exact ⟨.literal l :: .closing :: later, form, hrun⟩
  | groupContinuation place literals =>
      obtain ⟨later, form, hrun⟩ := exists_run_afterProduct (.group literals.reverse) place
      exact ⟨.closing :: later, form, hrun⟩
  | sumContinuation products => exact ⟨[.closing], _, rfl⟩
  | finished form => exact ⟨[], form, rfl⟩

end State

section

variable {ss : List Symbol} {state : State} {error : Error}

theorem accepted_of_run (h : State.start.run ss = some state) :
    ∃ later, Accepted (ss ++ later) := by
  obtain ⟨later, form, hrun⟩ := state.exists_run_eq_finished
  refine ⟨later, accepted_iff.mpr ⟨form, ?_⟩⟩
  rw [State.run_append, h, Option.bind_some, hrun]

/-- Nothing goes on with a symbol at which the reader stops. -/
theorem not_accepted_of_advance {s : Located Symbol} (hrun : State.start.run ss = some state)
    (h : state.advance s = .error error) (later : List Symbol) :
    ¬ Accepted (ss ++ [s.item] ++ later) := by
  have hstep : state.step s.item = none := by
    unfold State.advance at h
    split at h
    next => cases h
    next hstep => exact hstep
  rw [accepted_iff, State.run_append, State.run_append, hrun, Option.bind_some, State.run_cons,
    hstep]
  simp

/-- A sequence that is too short is no normal form. -/
theorem not_accepted_of_conclude {offset : Nat} (hrun : State.start.run ss = some state)
    (h : state.conclude offset = .error error) : ¬ Accepted ss := by
  rw [accepted_iff, hrun]
  rintro ⟨form, hstate⟩
  obtain rfl := Option.some.inj hstate
  cases h

end

/-! ## Reports -/

/-- Different symbols have different descriptions. -/
theorem Symbol.description_injective : Function.Injective Symbol.description := by
  intro s t h
  have hchars := congrArg String.toList h
  rcases s with _ | _ | k | ⟨_ | _⟩ | _ | _ | _ <;>
    rcases t with _ | _ | l | ⟨_ | _⟩ | _ | _ | _ <;>
      simp [description, Literal.text, toString] at hchars ⊢
  -- Only two literals can have similar descriptions.
  have hread := congrArg Literal.read? hchars
  rw [Literal.read?_chars, Literal.read?_chars] at hread
  exact Option.some.inj hread

theorem Symbol.description_ne_empty (s : Symbol) : s.description ≠ "" := by
  intro h
  have hchars := congrArg String.toList h
  rcases s with _ | _ | l | ⟨_ | _⟩ | _ | _ | _ <;> simp [description, toString] at hchars

/-- The report names the symbol at a position of the text, or the end behind all symbols. -/
inductive Blames (text : String) (located : List (Located Symbol)) (p : Nat) :
    Mismatch Expectation → Prop
  | symbol {s : Located Symbol} (hs : located[p]? = some s) (expected : Expectation) :
      Blames text located p ⟨s.offset, some s.item.description, expected⟩
  | ending (hp : p = located.length) (expected : Expectation) :
      Blames text located p ⟨text.utf8ByteSize, none, expected⟩

theorem Symbol.Written.ne_nil {s : Symbol} {word : List Char} (h : s.Written word) :
    word ≠ [] := by
  cases hs : s.isSign with
  | true =>
      obtain ⟨c, rfl, -⟩ := h.isSign hs
      exact List.cons_ne_nil _ _
  | false =>
      obtain ⟨c, rest, rfl, -⟩ := h.isWord hs
      exact List.cons_ne_nil _ _

/-- The text writes the symbol at its offset, and the earlier symbols in front of it. -/
def Stands (text : List Char) (earlier : List Symbol) (s : Located Symbol) : Prop :=
  ∃ front word back, text = front ++ (word ++ back) ∧ Writes front earlier ∧
    s.item.Written word ∧ s.offset = byteSize front

section

variable {text : String} {located : List (Located Symbol)} {p : Nat} {error : Error}

theorem exists_blames_of_advance {state : State} {s : Located Symbol} (hs : located[p]? = some s)
    (h : state.advance s = .error error) :
    ∃ mismatch, error = .malformed mismatch ∧ Blames text located p mismatch := by
  unfold State.advance at h
  split at h
  next => cases h
  next =>
    obtain rfl := Except.error.inj h
    exact ⟨_, rfl, .symbol hs _⟩

theorem exists_blames_of_conclude {state : State}
    (h : state.conclude text.utf8ByteSize = .error error) :
    ∃ mismatch, error = .malformed mismatch ∧ Blames text located located.length mismatch := by
  unfold State.conclude at h
  split at h
  next => cases h
  next =>
    obtain rfl := Except.error.inj h
    exact ⟨_, rfl, .ending rfl _⟩

/-- The reader fails at the first impossible symbol. -/
theorem exists_firstImpossible_of_read (hsymbols : symbols text = .ok located)
    (h : read text = .error error) :
    ∃ p mismatch, error = .malformed mismatch ∧
      FirstImpossible Accepted (located.map (·.item)) p ∧ Blames text located p mismatch := by
  rw [read, hsymbols] at h
  change located.foldlM State.advance .start >>= _ = _ at h
  obtain ⟨p, hfirst, hreport⟩ := FirstImpossible.exists_of_error
    (fun hfront => accepted_of_run (State.foldlM_advance_eq_ok_iff.mp hfront))
    (fun hfront => not_accepted_of_advance (State.foldlM_advance_eq_ok_iff.mp hfront))
    (fun hreached => not_accepted_of_conclude (State.foldlM_advance_eq_ok_iff.mp hreached)) h
  rcases hreport with ⟨reached, s, hs, hadvance⟩ | ⟨rfl, reached, hconclude⟩
  · obtain ⟨mismatch, herror, hblames⟩ := exists_blames_of_advance hs hadvance
    exact ⟨p, mismatch, herror, hfirst, hblames⟩
  · obtain ⟨mismatch, herror, hblames⟩ := exists_blames_of_conclude hconclude
    exact ⟨located.length, mismatch, herror, hfirst, hblames⟩

/-! ## Places -/

theorem offset_of_ofLexeme {lexeme : Located (List Char)} {s : Located Symbol}
    (h : Symbol.ofLexeme lexeme = .ok s) : s.offset = lexeme.offset := by
  have hsame := (Symbol.Written.of_ofLexeme h).ofLexeme_eq_ok lexeme.offset
  rw [Except.ok.inj (h.symm.trans hsame)]

/-- A symbol stands where it was found, behind the symbols in front of it. -/
theorem stands_of_symbols (h : symbols text = .ok located) {s : Located Symbol}
    (hs : located[p]? = some s) : Stands text.toList ((located.take p).map (·.item)) s := by
  obtain ⟨lexeme, hlexeme, hsymbol⟩ := exists_getElem?_of_mapM h hs
  obtain ⟨offset, hoffset, front, back, htext, hfront, rfl⟩ :=
    (Text.spells_lexemes lawful_wordRule text.toList 0).standsAt lawful_wordRule 0 hlexeme
  have hwritten := List.forall₂_take p (written_of_symbols h)
  rw [← List.map_take] at hwritten
  refine ⟨front, lexeme.item, back, htext, ⟨_, hfront, hwritten⟩, .of_ofLexeme hsymbol, ?_⟩
  rw [offset_of_ofLexeme hsymbol, hoffset, Nat.zero_add]

/-- A symbol starts in front of the end of the text. -/
theorem Stands.offset_lt {earlier : List Symbol} {s : Located Symbol}
    (h : Stands text.toList earlier s) : s.offset < text.utf8ByteSize := by
  obtain ⟨front, word, back, htext, ⟨words, hspaced, -⟩, hword, hoffset⟩ := h
  have hstands : StandsAt text.toList words s.offset word := ⟨front, back, htext, hspaced, hoffset⟩
  have hlt := hstands.offset_lt hword.ne_nil
  rw [byteSize, String.ofList_toList] at hlt
  exact hlt

/-- No two symbols have the same offset. -/
theorem eq_of_offset_eq (h : symbols text = .ok located) {q : Nat} {s t : Located Symbol}
    (hs : located[p]? = some s) (ht : located[q]? = some t) (hoffset : s.offset = t.offset) :
    p = q := by
  obtain ⟨first, hfirst, hs⟩ := exists_getElem?_of_mapM h hs
  obtain ⟨second, hsecond, ht⟩ := exists_getElem?_of_mapM h ht
  rw [offset_of_ofLexeme hs, offset_of_ofLexeme ht] at hoffset
  obtain ⟨hp, rfl⟩ := List.getElem?_eq_some_iff.mp hfirst
  obtain ⟨hq, rfl⟩ := List.getElem?_eq_some_iff.mp hsecond
  have hpairs := List.pairwise_iff_getElem.mp (Text.lexemes_increasing wordRule 0 text.toList).2
  rcases Nat.lt_trichotomy p q with hlt | heq | hlt
  · exact absurd hoffset (hpairs p q hp hq hlt).ne
  · exact heq
  · exact absurd hoffset (hpairs q p hq hp hlt).ne'

namespace Blames

variable {mismatch : Mismatch Expectation}

/-- The offset of the report tells its position. -/
theorem offset_eq_iff (h : Blames text located p mismatch) (hsymbols : symbols text = .ok located)
    {q : Nat} {s : Located Symbol} (hs : located[q]? = some s) :
    mismatch.offset = s.offset ↔ q = p := by
  cases h with
  | @symbol t ht expected =>
      constructor
      · exact fun hoffset => eq_of_offset_eq hsymbols hs ht hoffset.symm
      · rintro rfl
        rw [Option.some.inj (ht.symm.trans hs)]
  | ending hp expected =>
      have hlt := (stands_of_symbols hsymbols hs).offset_lt
      obtain ⟨hq, -⟩ := List.getElem?_eq_some_iff.mp hs
      exact iff_of_false hlt.ne' (by omega)

/-- The description in the report tells its symbol. -/
theorem found_eq_iff (h : Blames text located p mismatch) {s : Located Symbol}
    (hs : located[p]? = some s) (t : Symbol) :
    mismatch.found = some t.description ↔ t = s.item := by
  cases h with
  | @symbol s' hs' expected =>
      obtain rfl := Option.some.inj (hs.symm.trans hs')
      rw [Option.some.injEq, Symbol.description_injective.eq_iff, eq_comm]
  | ending hp expected =>
      rw [hp] at hs
      simp at hs

/-- A report of the end of the text differs from every other one. -/
theorem ending_iff (h : Blames text located p mismatch) (hsymbols : symbols text = .ok located) :
    (mismatch.offset = text.utf8ByteSize ↔ p = located.length) ∧
      (mismatch.found.getD "" = "" ↔ p = located.length) := by
  cases h with
  | @symbol s hs expected =>
      have hlt := (stands_of_symbols hsymbols hs).offset_lt
      obtain ⟨hp, -⟩ := List.getElem?_eq_some_iff.mp hs
      exact ⟨iff_of_false hlt.ne hp.ne, iff_of_false s.item.description_ne_empty hp.ne⟩
  | ending hp expected => exact ⟨iff_of_true rfl hp, iff_of_true rfl hp⟩

end Blames

end

/-- If a text consists of symbols but is no normal form, then there is a first symbol with which no
accepted sequence goes on, or the text ends too early. The report is that the text is malformed at
this symbol, with its offset and its description, or at the end. -/
theorem malformed_at_first_impossible {text : String} {located : List (Located Symbol)}
    {error : Error} (hsymbols : symbols text = .ok located) (hread : read text = .error error) :
    ∃ p mismatch, error = .malformed mismatch ∧
      FirstImpossible Accepted (located.map (·.item)) p ∧ Blames text located p mismatch ∧
      (∀ q s, located[q]? = some s → Stands text.toList ((located.take q).map (·.item)) s ∧
        (mismatch.offset = s.offset ↔ q = p)) ∧
      (∀ s, located[p]? = some s → ∀ t : Symbol,
        mismatch.found = some t.description ↔ t = s.item) ∧
      (mismatch.offset = text.utf8ByteSize ↔ p = located.length) ∧
      (mismatch.found.getD "" = "" ↔ p = located.length) := by
  obtain ⟨p, mismatch, herror, hfirst, hblames⟩ := exists_firstImpossible_of_read hsymbols hread
  refine ⟨p, mismatch, herror, hfirst, hblames, ?_, ?_, hblames.ending_iff hsymbols⟩
  · intro q s hs
    exact ⟨stands_of_symbols hsymbols hs, hblames.offset_eq_iff hsymbols hs⟩
  · intro s hs
    exact hblames.found_eq_iff hs

/-- A sum inside a sum, a sum that is not closed and a second literal. -/
theorem malformed_at_first_impossible_reports :
    let a : Literal := (Signal.ofIndex 0).literal .direct
    let b : Literal := (Signal.ofIndex 7).literal .complement
    let nested : List (Located Symbol) :=
      [⟨0, .or⟩, ⟨2, .opening⟩, ⟨3, .literal a⟩, ⟨5, .comma⟩, ⟨7, .or⟩, ⟨9, .opening⟩]
    let early : List (Located Symbol) := [⟨1, .or⟩, ⟨3, .opening⟩, ⟨4, .literal b⟩]
    let second : List (Located Symbol) := [⟨0, .literal a⟩, ⟨3, .literal b⟩]
    (symbols "oR(I0, Or(" = .ok nested ∧
      read "oR(I0, Or(" = .error (.malformed ⟨7, some "\"Or\"", .product⟩) ∧
      FirstImpossible Accepted (nested.map (·.item)) 4) ∧
    (symbols " or(~I07 " = .ok early ∧
      read " or(~I07 " = .error (.malformed ⟨9, none, .sumContinuation⟩) ∧
      FirstImpossible Accepted (early.map (·.item)) 3) ∧
    (symbols "I0 ~I7" = .ok second ∧
      read "I0 ~I7" = .error (.malformed ⟨3, some "literal ~I7", .nothing⟩) ∧
      FirstImpossible Accepted (second.map (·.item)) 1) := by
  intro a b nested early second
  have hnested : symbols "oR(I0, Or(" = .ok nested := by decide +kernel
  have hnestedRead : read "oR(I0, Or(" = .error (.malformed ⟨7, some "\"Or\"", .product⟩) := by
    decide +kernel
  have hearly : symbols " or(~I07 " = .ok early := by decide +kernel
  have hearlyRead : read " or(~I07 " = .error (.malformed ⟨9, none, .sumContinuation⟩) := by
    decide +kernel
  have hsecond : symbols "I0 ~I7" = .ok second := by decide +kernel
  have hsecondRead : read "I0 ~I7" = .error (.malformed ⟨3, some "literal ~I7", .nothing⟩) := by
    decide +kernel
  refine ⟨⟨hnested, hnestedRead, ?_⟩, ⟨hearly, hearlyRead, ?_⟩, ⟨hsecond, hsecondRead, ?_⟩⟩
  · obtain ⟨p, mismatch, herror, hfirst, -, hplaces, -⟩ :=
      malformed_at_first_impossible hnested hnestedRead
    obtain rfl := Error.malformed.inj herror
    obtain rfl : 4 = p := (hplaces 4 _ rfl).2.mp rfl
    exact hfirst
  · obtain ⟨p, mismatch, herror, hfirst, -, -, -, hend, -⟩ :=
      malformed_at_first_impossible hearly hearlyRead
    obtain rfl := Error.malformed.inj herror
    obtain rfl := hend.mp rfl
    exact hfirst
  · obtain ⟨p, mismatch, herror, hfirst, -, hplaces, -⟩ :=
      malformed_at_first_impossible hsecond hsecondRead
    obtain rfl := Error.malformed.inj herror
    obtain rfl : 1 = p := (hplaces 1 _ rfl).2.mp rfl
    exact hfirst

end ArrayLogic.NormalForm
