import ArrayLogic.Proofs.Formula.Rendering
import ArrayLogic.Proofs.Formula.Run
import ArrayLogic.Proofs.Text.Places

/-! # Failures of the reader

The reader stops at the first symbol with which nothing that can be read goes on. As long as it has
not stopped, an operand and closing brackets would complete what it has read; once it has, no
continuation is of any use. Its report names the symbol, or the end of the text if the text ends too
early.
-/

namespace ArrayLogic.Formula

open Text (FirstImpossible Located Spaced StandsAt byteSize)

variable {scope : Scope}

/-! ## Accepted sequences -/

/-- Some text of the symbols is read. -/
def Accepted (scope : Scope) (ss : List Symbol) : Prop :=
  ∃ text located f, symbols text = .ok located ∧ located.map (·.item) = ss ∧ read scope text = .ok f

theorem accepted_iff {ss : List Symbol} : Accepted scope ss ↔
    ∃ operand p, State.start.run scope ss = some (.behind operand p []) := by
  constructor
  · rintro ⟨text, located, f, hsymbols, rfl, hread⟩
    obtain ⟨operand, p, hrun, -⟩ := (written_of_symbols hsymbols).read_eq_ok_iff.mp hread
    exact ⟨operand, p, hrun⟩
  · rintro ⟨operand, p, hrun⟩
    -- No two words are neighbours, so that nothing has to stand between the symbols.
    have hspaced : Spaced (String.ofList (ss.map (·.text.toList)).flatten).toList
        (ss.map (·.text.toList)) := by
      rw [String.toList_ofList]
      exact .flatten _
    have hwritten := (Runs.of_run hrun).written hspaced
    obtain ⟨located, hsymbols, hitems⟩ := hwritten.symbols
    exact ⟨_, located, _, hsymbols, hitems, hwritten.read_eq_ok_iff.mpr ⟨operand, p, hrun, rfl⟩⟩

namespace State

/-- Closing brackets complete what is read behind an operand. -/
theorem run_closings (f : Formula) (p : Pending) (outer : List Pending) :
    ∃ operand q, (behind f p outer).run scope (List.replicate outer.length .closing) =
      some (.behind operand q []) := by
  induction outer generalizing f p with
  | nil => exact ⟨f, p, rfl⟩
  | cons enclosing outer ih =>
      obtain ⟨operand, q, hrun⟩ := ih (p.disjoined f) enclosing
      exact ⟨operand, q, hrun⟩

/-- What has been read can be completed from any state. -/
theorem exists_run_eq_some (state : State) :
    ∃ later operand p, state.run scope later = some (.behind operand p []) := by
  cases state with
  | before p outer =>
      obtain ⟨operand, q, hrun⟩ := @run_closings scope (.const false) p outer
      exact ⟨.word "0" :: List.replicate outer.length .closing, operand, q, hrun⟩
  | behind f p outer => exact ⟨_, run_closings f p outer⟩

end State

theorem accepted_of_run {ss : List Symbol} {state : State}
    (h : State.start.run scope ss = some state) : ∃ later, Accepted scope (ss ++ later) := by
  obtain ⟨later, operand, p, hrun⟩ := @State.exists_run_eq_some scope state
  refine ⟨later, accepted_iff.mpr ⟨operand, p, ?_⟩⟩
  rw [State.run_append, h, Option.bind_some, hrun]

/-- Nothing goes on with a symbol at which the reader stops. -/
theorem not_accepted_of_advance {ss : List Symbol} {state : State} {s : Located Symbol}
    {error : Error} (hrun : State.start.run scope ss = some state)
    (h : state.advance scope s = .error error) (later : List Symbol) :
    ¬ Accepted scope (ss ++ [s.item] ++ later) := by
  have hstep : state.step scope s.item = none := by
    rw [Option.eq_none_iff_forall_ne_some]
    intro next hnext
    rw [State.advance_eq_ok_iff.mpr hnext] at h
    cases h
  rw [accepted_iff, State.run_append, State.run_append, hrun, Option.bind_some,
    State.run_singleton, hstep]
  simp

/-! ## Reports -/

/-- The error names the symbol at a position of the text, or the end behind all symbols. -/
inductive Blames (scope : Scope) (text : String) (located : List (Located Symbol)) (p : Nat) :
    Error → Prop
  | symbol {s : Located Symbol} (hs : located[p]? = some s) (expected : Expectation) :
      Blames scope text located p (.unexpected ⟨s.offset, some s.item.text, expected⟩)
  | ending (hp : p = located.length) (expected : Expectation) :
      Blames scope text located p (.unexpected ⟨text.utf8ByteSize, none, expected⟩)
  | input {offset k : Nat}
      (hs : located[p]? = some ⟨offset, .word (String.ofList ('I' :: Nat.toDigits 10 k))⟩)
      (hk : scope.inputs ≤ k) : Blames scope text located p (.unknownInput k scope.inputs)
  | name {offset : Nat} {name : String} (hs : located[p]? = some ⟨offset, .word name⟩)
      (hname : Name.isDefinable name.toList = true) (hlookup : scope.lookup name = none) :
      Blames scope text located p (.undefinedName name)

section

variable {text : String} {located : List (Located Symbol)} {p : Nat} {error : Error}

theorem Blames.of_resolve {offset : Nat} {word : String}
    (hs : located[p]? = some ⟨offset, .word word⟩)
    (h : scope.resolve offset word = .error error) : Blames scope text located p error := by
  have hw : word = String.ofList word.toList := String.ofList_toList.symm
  unfold Scope.resolve at h
  split at h
  next => simp at h
  next => simp at h
  next digits hchars =>
    split at h
    next k hk =>
      split at h
      next => simp at h
      next hinputs =>
        obtain rfl := Except.error.inj h
        rw [hchars, (Text.index?_eq_some_iff.mp hk).1] at hw
        rw [hw] at hs
        exact .input hs (Nat.not_lt.mp hinputs)
    next =>
      obtain rfl := Except.error.inj h
      exact .symbol hs .operand
  next =>
    split at h
    next hname =>
      split at h
      next => simp at h
      next hlookup =>
        obtain rfl := Except.error.inj h
        exact .name hs hname hlookup
    next =>
      obtain rfl := Except.error.inj h
      exact .symbol hs .operand

theorem Blames.of_advance {state : State} {s : Located Symbol} (hs : located[p]? = some s)
    (h : state.advance scope s = .error error) : Blames scope text located p error := by
  unfold State.advance at h
  split at h
  next => simp at h
  next => simp at h
  next word hitem =>
    cases hresolve : scope.resolve s.offset word with
    | ok f => simp [hresolve, Except.map] at h
    | error e =>
        rw [hresolve] at h
        obtain rfl := Except.error.inj h
        rcases s with ⟨offset, item⟩
        obtain rfl : item = .word word := hitem
        exact .of_resolve hs hresolve
  next => simp at h
  next => simp at h
  next => simp at h
  next => simp at h
  next =>
    obtain rfl := Except.error.inj h
    exact .symbol hs _

theorem Blames.of_conclude {state : State}
    (h : state.conclude text.utf8ByteSize = .error error) :
    Blames scope text located located.length error := by
  unfold State.conclude at h
  split at h
  next => simp at h
  next =>
    obtain rfl := Except.error.inj h
    exact .ending rfl _

theorem eq_of_ofLexeme {lexeme : Located (List Char)} {s : Located Symbol}
    (h : Symbol.ofLexeme lexeme = .ok s) : lexeme = ⟨s.offset, s.item.text.toList⟩ := by
  obtain ⟨hitem, hproper⟩ := text_of_ofLexeme h
  rcases lexeme with ⟨offset, item⟩
  obtain rfl : item = s.item.text.toList := hitem
  rw [ofLexeme_text hproper] at h
  rw [← Except.ok.inj h]

/-- A symbol stands where it was found, behind the symbols in front of it. -/
theorem standsAt_of_symbols (h : symbols text = .ok located) {s : Located Symbol}
    (hs : located[p]? = some s) :
    StandsAt text.toList ((located.take p).map (·.item.text.toList)) s.offset
      s.item.text.toList := by
  obtain ⟨hspells, -⟩ := written_of_symbols h
  obtain ⟨lexeme, hlexeme, hsymbol⟩ := exists_getElem?_of_mapM h hs
  obtain rfl := eq_of_ofLexeme hsymbol
  obtain ⟨offset, hoffset, hstands⟩ := hspells.standsAt lawful_wordRule 0 hlexeme
  rw [Nat.zero_add] at hoffset
  rw [List.map_map, ← List.map_take, ← hoffset] at hstands
  exact hstands

theorem text_ne_nil_of_symbols (h : symbols text = .ok located) {s : Located Symbol}
    (hs : s ∈ located) : s.item.text.toList ≠ [] := by
  refine (written_of_symbols h).1.ne_nil _ ?_
  rw [List.map_map]
  exact List.mem_map_of_mem hs

/-- A report of the end of the text differs from every other one. -/
theorem Blames.unexpected_iff {mismatch : Text.Mismatch Expectation}
    (h : Blames scope text located p (.unexpected mismatch))
    (hsymbols : symbols text = .ok located) :
    (mismatch.offset = text.utf8ByteSize ↔ p = located.length) ∧
      (mismatch.found.getD "" = "" ↔ p = located.length) := by
  cases h with
  | @symbol s hs expected =>
      have hne : p ≠ located.length := by
        rintro rfl
        simp at hs
      have htext := text_ne_nil_of_symbols hsymbols (List.mem_of_getElem? hs)
      have hlt := (standsAt_of_symbols hsymbols hs).offset_lt htext
      rw [byteSize, String.ofList_toList] at hlt
      refine ⟨iff_of_false hlt.ne hne, iff_of_false ?_ hne⟩
      intro hempty
      exact htext (String.toList_eq_nil_iff.mpr hempty)
  | ending hp expected => exact ⟨iff_of_true rfl hp, iff_of_true rfl hp⟩

/-- A text that ends too early has no other meaning either. -/
theorem not_accepted_of_conclude {state : State} {ss : List Symbol} {offset : Nat}
    (hrun : State.start.run scope ss = some state) (h : state.conclude offset = .error error) :
    ¬ Accepted scope ss := by
  rw [accepted_iff, hrun]
  rintro ⟨operand, q, hstate⟩
  obtain rfl := Option.some.inj hstate
  cases h

/-- The reader fails at the first impossible symbol. -/
theorem exists_firstImpossible_of_read (hsymbols : symbols text = .ok located)
    (h : read scope text = .error error) :
    ∃ p, FirstImpossible (Accepted scope) (located.map (·.item)) p ∧
      Blames scope text located p error := by
  rw [read, hsymbols] at h
  change located.foldlM (State.advance scope) .start >>= _ = _ at h
  obtain ⟨p, hfirst, hreport⟩ := FirstImpossible.exists_of_error
    (fun hfront => accepted_of_run (State.foldlM_advance_eq_ok_iff.mp hfront))
    (fun hfront => not_accepted_of_advance (State.foldlM_advance_eq_ok_iff.mp hfront))
    (fun hreached => not_accepted_of_conclude (State.foldlM_advance_eq_ok_iff.mp hreached)) h
  refine ⟨p, hfirst, ?_⟩
  rcases hreport with ⟨reached, s, hs, hadvance⟩ | ⟨rfl, reached, hconclude⟩
  · exact .of_advance hs hadvance
  · exact .of_conclude hconclude

end

/-- If a text consists of symbols but cannot be read, then there is a first symbol with which no
accepted sequence goes on, or the text ends too early. The error names this symbol with its place,
as an input that the device lacks or as a name that is not bound if it is one, or the end. -/
theorem read_error_at_first_impossible {scope : Scope} {text : String}
    {located : List (Located Symbol)} {error : Error} (hsymbols : symbols text = .ok located)
    (hread : read scope text = .error error) :
    ∃ p, FirstImpossible (Accepted scope) (located.map (·.item)) p ∧
      Blames scope text located p error ∧
      (∀ s, located[p]? = some s → StandsAt text.toList
        ((located.take p).map (·.item.text.toList)) s.offset s.item.text.toList) ∧
      ∀ mismatch, error = .unexpected mismatch →
        (mismatch.offset = text.utf8ByteSize ↔ p = located.length) ∧
          (mismatch.found.getD "" = "" ↔ p = located.length) := by
  obtain ⟨p, hfirst, hblames⟩ := exists_firstImpossible_of_read hsymbols hread
  refine ⟨p, hfirst, hblames, fun s hs => standsAt_of_symbols hsymbols hs, ?_⟩
  rintro mismatch rfl
  exact hblames.unexpected_iff hsymbols

/-- A closing bracket in place of an operand, a missing one, an input that the device lacks and a
name that is not bound. What follows the impossible symbol is not looked at. -/
theorem read_error_at_first_impossible_reports :
    let scope : Scope := ⟨1, fun _ => none⟩
    let bracket : List (Located Symbol) :=
      [⟨0, .opening⟩, ⟨1, .word "I0"⟩, ⟨4, .xor⟩, ⟨6, .closing⟩, ⟨8, .word "T1"⟩]
    let early : List (Located Symbol) := [⟨0, .not⟩, ⟨1, .opening⟩, ⟨2, .word "I0"⟩]
    let input : List (Located Symbol) := [⟨0, .word "I0"⟩, ⟨3, .and⟩, ⟨5, .word "I1"⟩]
    let name : List (Located Symbol) := [⟨1, .not⟩, ⟨2, .word "T1"⟩, ⟨5, .closing⟩]
    (symbols "(I0 ^ ) T1" = .ok bracket ∧
      read scope "(I0 ^ ) T1" = .error (.unexpected ⟨6, some ")", .operand⟩) ∧
      ∃ p, FirstImpossible (Accepted scope) (bracket.map (·.item)) p ∧ p ≠ bracket.length) ∧
    (symbols "~(I0 " = .ok early ∧
      read scope "~(I0 " = .error (.unexpected ⟨5, none, .closing⟩) ∧
      ∃ p, FirstImpossible (Accepted scope) (early.map (·.item)) p ∧ p = early.length) ∧
    (symbols "I0 & I1" = .ok input ∧ read scope "I0 & I1" = .error (.unknownInput 1 1) ∧
      ∃ p, FirstImpossible (Accepted scope) (input.map (·.item)) p ∧
        Blames scope "I0 & I1" input p (.unknownInput 1 1)) ∧
    (symbols " ~T1 )" = .ok name ∧ read scope " ~T1 )" = .error (.undefinedName "T1") ∧
      ∃ p, FirstImpossible (Accepted scope) (name.map (·.item)) p ∧
        Blames scope " ~T1 )" name p (.undefinedName "T1")) := by
  intro scope bracket early input name
  have hbracket : symbols "(I0 ^ ) T1" = .ok bracket := by decide +kernel
  have hbracketRead : read scope "(I0 ^ ) T1" = .error (.unexpected ⟨6, some ")", .operand⟩) := by
    decide +kernel
  have hearly : symbols "~(I0 " = .ok early := by decide +kernel
  have hearlyRead : read scope "~(I0 " = .error (.unexpected ⟨5, none, .closing⟩) := by
    decide +kernel
  have hinput : symbols "I0 & I1" = .ok input := by decide +kernel
  have hinputRead : read scope "I0 & I1" = .error (.unknownInput 1 1) := by decide +kernel
  have hname : symbols " ~T1 )" = .ok name := by decide +kernel
  have hnameRead : read scope " ~T1 )" = .error (.undefinedName "T1") := by decide +kernel
  obtain ⟨p, hfirst, -, -, hinside⟩ := read_error_at_first_impossible hbracket hbracketRead
  obtain ⟨q, hsecond, -, -, hend⟩ := read_error_at_first_impossible hearly hearlyRead
  obtain ⟨r, hthird, hthirdBlames, -, -⟩ := read_error_at_first_impossible hinput hinputRead
  obtain ⟨t, hfourth, hfourthBlames, -, -⟩ := read_error_at_first_impossible hname hnameRead
  refine ⟨⟨hbracket, hbracketRead, p, hfirst, ?_⟩, ⟨hearly, hearlyRead, q, hsecond, ?_⟩,
    ⟨hinput, hinputRead, r, hthird, hthirdBlames⟩, ⟨hname, hnameRead, t, hfourth, hfourthBlames⟩⟩
  · exact mt (hinside _ rfl).2.mpr (by decide)
  · exact (hend _ rfl).2.mp rfl

end ArrayLogic.Formula
