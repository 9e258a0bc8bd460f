import ArrayLogic.Proofs.NormalForm.Reader

/-! # Renderings of normal forms

A text renders a normal form if it writes the symbols of the form with separators anywhere around
them. The reader accepts the renderings and nothing else, and its terms have the literals of the
text in the order in which they appear.
-/

namespace ArrayLogic

namespace NormalForm

open Text (Spells lexemes spells_iff)

/-- The text renders the form. A sum and a group have at least one part. -/
def Renders (text : String) (form : NormalForm) : Prop :=
  form.Proper ∧ Writes text.toList form.spelling

/-- The symbols of a text that is read are those of the form. -/
theorem symbols_of_read {text : String} {form : NormalForm} (h : read text = .ok form) :
    form.Proper ∧
      ∃ located, symbols text = .ok located ∧ located.map (·.item) = form.spelling := by
  obtain ⟨located, hsymbols, h⟩ := bind_eq_ok_iff.mp h
  obtain ⟨state, hstate, hconclude⟩ := bind_eq_ok_iff.mp h
  obtain rfl := State.conclude_eq_ok_iff.mp hconclude
  rw [State.foldlM_advance_eq_ok_iff, State.run_eq_finished_iff] at hstate
  obtain ⟨hproper, hspelling⟩ := hstate
  exact ⟨hproper, located, hsymbols, hspelling.symm⟩

/-- The reader accepts exactly the renderings of a form. -/
theorem read_eq_ok_iff {text : String} {form : NormalForm} :
    read text = .ok form ↔ Renders text form := by
  constructor
  · intro h
    obtain ⟨hproper, located, hsymbols, hitems⟩ := symbols_of_read h
    exact ⟨hproper, hitems ▸ writes_of_symbols hsymbols⟩
  · intro h
    obtain ⟨hproper, hwrites⟩ := h
    have hrun := State.run_spelling hproper
    obtain ⟨located, hsymbols, hitems⟩ := hwrites.symbols (State.apart_of_run hrun)
    refine bind_eq_ok_iff.mpr ⟨located, hsymbols, bind_eq_ok_iff.mpr ⟨.finished form, ?_, rfl⟩⟩
    rw [State.foldlM_advance_eq_ok_iff, hitems]
    exact hrun

/-- A proper form is read back from its text. -/
theorem read_text {form : NormalForm} (h : form.Proper) : read form.text = .ok form := by
  rw [read_eq_ok_iff, Renders, text, String.toList_ofList]
  exact ⟨h, writes_chars form⟩

/-! ## Literals in order of appearance -/

/-- The literal that a symbol is. -/
def Symbol.literal? : Symbol → Option Literal
  | .literal l => some l
  | _ => none

theorem Symbol.Written.read?_eq {s : Symbol} {word : List Char} (h : s.Written word) :
    Literal.read? word = s.literal? := by
  cases hread : Literal.read? word with
  | some l =>
      -- A word writes one symbol only.
      have hliteral : (Symbol.literal l).Written word :=
        .literal (Literal.read?_eq_some_iff.mp hread)
      have hsame := (h.ofLexeme_eq_ok 0).symm.trans (hliteral.ofLexeme_eq_ok 0)
      obtain rfl : s = .literal l := by simpa using hsame
      rfl
  | none =>
      cases h with
      | literal h => simp [Literal.read?_eq_some_iff.mpr h] at hread
      | and | or | zero | one | opening | closing | comma => rfl

theorem filterMap_read?_of_written {found : List Symbol} {words : List (List Char)}
    (h : List.Forall₂ Symbol.Written found words) :
    words.filterMap Literal.read? = found.filterMap Symbol.literal? := by
  induction h with
  | nil => rfl
  | cons hword _ ih => rw [List.filterMap_cons, List.filterMap_cons, hword.read?_eq, ih]

theorem filterMap_literal?_separated {α : Type} {spelling : α → List Symbol}
    {literals : α → List Literal} (parts : List α)
    (h : ∀ part ∈ parts, (spelling part).filterMap Symbol.literal? = literals part) :
    ([.comma].intercalate (parts.map spelling)).filterMap Symbol.literal? =
      parts.flatMap literals := by
  induction parts with
  | nil => rfl
  | cons part others ih =>
      obtain ⟨hpart, hothers⟩ := List.forall_mem_cons.mp h
      cases others with
      | nil => simp [hpart]
      | cons second others =>
          have hrest := ih hothers
          rw [List.map_cons] at hrest
          rw [List.map_cons, List.map_cons, List.intercalate_cons_cons, List.filterMap_append,
            List.filterMap_append, hpart, hrest]
          simp [Symbol.literal?]

theorem filterMap_literal?_bracketed (keyword : Symbol) (hkeyword : keyword.literal? = none)
    (inner : List Symbol) :
    (keyword :: .opening :: inner ++ [Symbol.closing]).filterMap Symbol.literal? =
      inner.filterMap Symbol.literal? := by
  rw [List.filterMap_append, List.filterMap_cons_none hkeyword, List.filterMap_cons_none rfl]
  exact List.append_nil _

theorem filterMap_literal?_product (p : Product) :
    p.spelling.filterMap Symbol.literal? = p.term.literals := by
  cases p with
  | literal l => rfl
  | group literals =>
      by_cases h : literals = []
      · rw [h]
        rfl
      · rw [Product.spelling_group h, filterMap_literal?_bracketed .and rfl,
          filterMap_literal?_separated literals fun _ _ => rfl]
        exact List.flatMap_singleton' literals

theorem filterMap_literal?_spelling (form : NormalForm) :
    form.spelling.filterMap Symbol.literal? = form.terms.flatMap Term.literals := by
  cases form with
  | constant value => cases value <;> rfl
  | product p => simp [spelling, terms, filterMap_literal?_product]
  | sum products =>
      rw [spelling, filterMap_literal?_bracketed .or rfl,
        filterMap_literal?_separated products fun p _ => filterMap_literal?_product p, terms,
        List.flatMap_map]

/-- The reader accepts exactly the renderings of a form. The words of an accepted text are unique,
and the literals among them are those of the terms, in the same order. -/
theorem read_accepts_renderings (text : String) :
    (∀ form, read text = .ok form ↔ Renders text form) ∧
      ∀ terms, readTerms text = .ok terms →
        ∃ words, (∀ ws, Spells wordRule text.toList ws ↔ ws = words) ∧
          words.filterMap Literal.read? = terms.flatMap Term.literals := by
  refine ⟨fun form => read_eq_ok_iff, ?_⟩
  intro terms h
  obtain ⟨form, hread, rfl⟩ := map_eq_ok_iff.mp h
  obtain ⟨-, located, hsymbols, hitems⟩ := symbols_of_read hread
  have hwritten := written_of_symbols hsymbols
  rw [hitems] at hwritten
  refine ⟨(lexemes wordRule 0 text.toList).map (·.item), ?_, ?_⟩
  · intro ws
    rw [spells_iff lawful_wordRule 0, eq_comm]
  · rw [filterMap_read?_of_written hwritten, filterMap_literal?_spelling]

/-- Cases are mixed, an index has leading zeros, and the separators are unevenly spread. -/
theorem read_accepts_renderings_mixed_case :
    let a : Literal := (Signal.ofIndex 7).literal .complement
    let b : Literal := (Signal.ofIndex 1).literal .direct
    let text := " oR(\taND(~I007 ,I1),I1 )\n"
    Renders text (.sum [.group [a, b], .literal b]) ∧ readTerms text = .ok [⟨[a, b]⟩, ⟨[b]⟩] ∧
      ∃ words, Spells wordRule text.toList words ∧ words.filterMap Literal.read? = [a, b, b] := by
  intro a b text
  have hread : read text = .ok (.sum [.group [a, b], .literal b]) := by decide +kernel
  have hterms : readTerms text = .ok [⟨[a, b]⟩, ⟨[b]⟩] := by rw [readTerms, hread]; rfl
  obtain ⟨hrenders, hliterals⟩ := read_accepts_renderings text
  obtain ⟨words, hwords, hfound⟩ := hliterals _ hterms
  exact ⟨(hrenders _).mp hread, hterms, words, (hwords words).mpr rfl, hfound⟩

end NormalForm

end ArrayLogic
