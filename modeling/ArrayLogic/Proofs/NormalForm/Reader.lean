import ArrayLogic.NormalForm.Reader
import ArrayLogic.Proofs.NormalForm.Spelling

/-! # The machine that reads normal forms

The reader is a machine over the symbols, and offsets only enter its reports. A written form takes
it from the start to the form itself: one list of literals fills a group, one list of products fills
the sum, and neither list may be empty. Conversely a state tells all the symbols that have been
read, so no other symbols lead to the form.
-/

namespace ArrayLogic

/-- A group holds at least one literal. -/
def Product.Proper : Product → Prop
  | literal _ => True
  | group literals => literals ≠ []

namespace NormalForm

open Text (Located)

/-- Neither the sum nor a group in it is empty. -/
def Proper : NormalForm → Prop
  | constant _ => True
  | product p => p.Proper
  | sum products => products ≠ [] ∧ ∀ p ∈ products, p.Proper

namespace State

/-- The state after several symbols, if they may follow. -/
def run (state : State) (found : List Symbol) : Option State :=
  found.foldlM step state

@[simp] theorem run_nil (state : State) : state.run [] = some state :=
  rfl

theorem run_cons (state : State) (s : Symbol) (found : List Symbol) :
    state.run (s :: found) = (state.step s).bind (·.run found) :=
  List.foldlM_cons

theorem run_append (state : State) (first second : List Symbol) :
    state.run (first ++ second) = (state.run first).bind (·.run second) :=
  List.foldlM_append

/-- The reader goes on as long as the machine does. -/
theorem foldlM_advance_eq_ok_iff {state last : State} {located : List (Located Symbol)} :
    located.foldlM advance state = .ok last ↔ state.run (located.map (·.item)) = some last := by
  induction located generalizing state with
  | nil => simp [pure, Except.pure]
  | cons s located ih =>
      rw [List.foldlM_cons, bind_eq_ok_iff, List.map_cons, run_cons, Option.bind_eq_some_iff]
      have hstep (next : State) : state.advance s = .ok next ↔ state.step s.item = some next := by
        unfold advance
        cases state.step s.item <;> simp
      simp only [hstep, ih]

/-! ## Written forms -/

/-- Parts separated by commas are collected one by one, if every part leads from `before` to `after`
and a comma leads back. -/
theorem run_separated {α : Type} {before after : List α → State} {spelling : α → List Symbol}
    (hcomma : ∀ earlier, (after earlier).step .comma = some (before earlier)) {parts : List α}
    (hne : parts ≠ []) (hpart : ∀ part ∈ parts, ∀ earlier,
      (before earlier).run (spelling part) = some (after (part :: earlier))) (earlier : List α) :
    (before earlier).run ([.comma].intercalate (parts.map spelling)) =
      some (after (parts.reverse ++ earlier)) := by
  induction parts generalizing earlier with
  | nil => exact absurd rfl hne
  | cons part others ih =>
      have hfirst := hpart part List.mem_cons_self earlier
      cases others with
      | nil => simpa using hfirst
      | cons second others =>
          have hothers := ih (List.cons_ne_nil _ _)
            (fun p hp => hpart p (List.mem_cons_of_mem _ hp)) (part :: earlier)
          rw [List.map_cons] at hothers
          rw [List.map_cons, List.map_cons, List.intercalate_cons_cons, run_append, run_append,
            hfirst, Option.bind_some, run_cons, hcomma, Option.bind_some, run_nil, Option.bind_some,
            hothers]
          simp

theorem run_bracketed {keyword : Symbol} {state inside filled last : State} {inner : List Symbol}
    (hopening : state.run [keyword, .opening] = some inside)
    (hinner : inside.run inner = some filled) (hclosing : filled.step .closing = some last) :
    state.run (keyword :: .opening :: inner ++ [.closing]) = some last := by
  have hsplit : keyword :: .opening :: inner ++ [.closing] =
      [keyword, .opening] ++ inner ++ [.closing] := rfl
  rw [hsplit, run_append, run_append, hopening, Option.bind_some, hinner, Option.bind_some,
    run_cons, hclosing]
  rfl

/-- The state in front of a product at a place. -/
def atPlace : Place → State
  | none => start
  | some earlier => product earlier

theorem run_product (place : Place) {p : Product} (hp : p.Proper) :
    (atPlace place).run p.spelling = some (afterProduct p place) := by
  cases p with
  | literal l => cases place <;> rfl
  | group literals =>
      have hliterals : (literal place []).run
          ([.comma].intercalate (literals.map fun l => [.literal l])) =
            some (groupContinuation place (literals.reverse ++ [])) :=
        run_separated (fun _ => rfl) hp (fun _ _ _ => rfl) []
      rw [Product.spelling_group hp]
      refine run_bracketed ?_ hliterals ?_
      · cases place <;> rfl
      · simp [step]

/-- A proper form is read back from its symbols. -/
theorem run_spelling {form : NormalForm} (h : form.Proper) :
    start.run form.spelling = some (finished form) := by
  cases form with
  | constant value => rfl
  | product p => exact run_product none h
  | sum products =>
      have hproducts : (product []).run ([.comma].intercalate (products.map Product.spelling)) =
          some (sumContinuation (products.reverse ++ [])) :=
        run_separated (fun _ => rfl) h.1
          (fun p hp earlier => run_product (some earlier) (h.2 p hp)) []
      refine run_bracketed rfl hproducts ?_
      simp [step]

/-! ## Symbols that lead to a state -/

/-- The parts with a comma behind each of them. -/
def continued (parts : List (List Symbol)) : List Symbol :=
  parts.flatMap (· ++ [.comma])

theorem intercalate_concat (parts : List (List Symbol)) (last : List Symbol) :
    [.comma].intercalate (parts ++ [last]) = continued parts ++ last := by
  induction parts with
  | nil => simp [continued]
  | cons part parts ih =>
      have hne : parts ++ [last] ≠ [] := by simp
      obtain ⟨next, others, hothers⟩ := List.exists_cons_of_ne_nil hne
      rw [List.cons_append, hothers, List.intercalate_cons_cons, ← hothers, ih]
      simp [continued]

theorem continued_eq {parts : List (List Symbol)} (h : parts ≠ []) :
    continued parts = [.comma].intercalate parts ++ [.comma] := by
  obtain ⟨earlier, last, rfl⟩ := List.eq_nil_or_concat parts |>.resolve_left h
  rw [List.concat_eq_append, intercalate_concat]
  simp [continued]

/-- The symbols in front of a product at a place. -/
def opened : Place → List Symbol
  | none => []
  | some earlier => .or :: .opening :: continued (earlier.reverse.map Product.spelling)

/-- The symbols that have been read in a state. -/
def spelling : State → List Symbol
  | start => []
  | sumOpening => [.or]
  | product earlier => opened (some earlier)
  | groupOpening place => opened place ++ [.and]
  | literal place earlier =>
      opened place ++ [.and, .opening] ++ continued (earlier.reverse.map fun l => [.literal l])
  | groupContinuation place literals => opened place ++ [.and, .opening] ++
      [.comma].intercalate (literals.reverse.map fun l => [.literal l])
  | sumContinuation products =>
      .or :: .opening :: [.comma].intercalate (products.reverse.map Product.spelling)
  | finished form => form.spelling

/-- The products at a place are proper. -/
def ProperPlace (place : Place) : Prop :=
  ∀ earlier ∈ place, ∀ p ∈ earlier, p.Proper

/-- No list that could be closed is empty. -/
def Proper : State → Prop
  | start => True
  | sumOpening => True
  | product earlier => ProperPlace (some earlier)
  | groupOpening place => ProperPlace place
  | literal place _ => ProperPlace place
  | groupContinuation place literals => ProperPlace place ∧ literals ≠ []
  | sumContinuation products => (NormalForm.sum products).Proper
  | finished form => form.Proper

theorem afterProduct_reads {p : Product} {place : Place} (hp : p.Proper)
    (hplace : ProperPlace place) : (afterProduct p place).Proper ∧
      (afterProduct p place).spelling = opened place ++ p.spelling := by
  cases place with
  | none => exact ⟨hp, rfl⟩
  | some earlier =>
      constructor
      · exact ⟨List.cons_ne_nil _ _, List.forall_mem_cons.mpr ⟨hp, hplace earlier rfl⟩⟩
      · rw [afterProduct, spelling, List.reverse_cons, List.map_append, List.map_singleton,
          intercalate_concat]
        rfl

/-- A step reads its symbol. -/
theorem step_reads {state next : State} {s : Symbol} (h : state.step s = some next)
    (hproper : state.Proper) : next.Proper ∧ next.spelling = state.spelling ++ [s] := by
  cases state with
  | start =>
      cases s with
      | constant | or | literal =>
          obtain rfl := Option.some.inj h
          exact ⟨trivial, rfl⟩
      | and =>
          obtain rfl := Option.some.inj h
          exact ⟨by simp [Proper, ProperPlace], rfl⟩
      | opening | closing | comma => cases h
  | sumOpening =>
      cases s with
      | opening =>
          obtain rfl := Option.some.inj h
          exact ⟨by simp [Proper, ProperPlace], rfl⟩
      | and | or | literal | constant | closing | comma => cases h
  | product earlier =>
      cases s with
      | literal l =>
          obtain rfl := Option.some.inj h
          exact afterProduct_reads trivial hproper
      | and =>
          obtain rfl := Option.some.inj h
          exact ⟨hproper, rfl⟩
      | or | constant | opening | closing | comma => cases h
  | groupOpening place =>
      cases s with
      | opening =>
          obtain rfl := Option.some.inj h
          exact ⟨hproper, by simp [spelling, continued]⟩
      | and | or | literal | constant | closing | comma => cases h
  | literal place earlier =>
      cases s with
      | literal l =>
          obtain rfl := Option.some.inj h
          refine ⟨⟨hproper, List.cons_ne_nil _ _⟩, ?_⟩
          rw [spelling, spelling, List.reverse_cons, List.map_append, List.map_singleton,
            intercalate_concat, ← List.append_assoc]
      | and | or | constant | opening | closing | comma => cases h
  | groupContinuation place literals =>
      obtain ⟨hplace, hliterals⟩ := hproper
      cases s with
      | comma =>
          obtain rfl := Option.some.inj h
          refine ⟨hplace, ?_⟩
          rw [spelling, spelling, continued_eq (by simpa using hliterals), ← List.append_assoc]
      | closing =>
          obtain rfl := Option.some.inj h
          have hgroup : (Product.group literals.reverse).Proper := by
            simpa [Product.Proper] using hliterals
          obtain ⟨hnext, hspelling⟩ := afterProduct_reads hgroup hplace
          refine ⟨hnext, ?_⟩
          rw [hspelling, spelling, Product.spelling_group hgroup]
          simp
      | and | or | literal | constant | opening => cases h
  | sumContinuation products =>
      obtain ⟨hne, hproducts⟩ := hproper
      cases s with
      | comma =>
          obtain rfl := Option.some.inj h
          refine ⟨by simpa [Proper, ProperPlace] using hproducts, ?_⟩
          rw [spelling, opened, spelling, continued_eq (by simpa using hne)]
          rfl
      | closing =>
          obtain rfl := Option.some.inj h
          exact ⟨by simpa [Proper, NormalForm.Proper] using ⟨hne, hproducts⟩, rfl⟩
      | and | or | literal | constant | opening => cases h
  | finished form => cases s <;> cases h

/-- What has been read after several symbols. -/
theorem run_reads {state last : State} {found : List Symbol} (h : state.run found = some last)
    (hproper : state.Proper) : last.Proper ∧ last.spelling = state.spelling ++ found := by
  induction found generalizing state with
  | nil =>
      obtain rfl := Option.some.inj h
      exact ⟨hproper, (List.append_nil _).symm⟩
  | cons s found ih =>
      rw [run_cons, Option.bind_eq_some_iff] at h
      obtain ⟨next, hstep, hrun⟩ := h
      obtain ⟨hnext, hread⟩ := step_reads hstep hproper
      obtain ⟨hlast, hspelling⟩ := ih hrun hnext
      refine ⟨hlast, ?_⟩
      rw [hspelling, hread, List.append_assoc]
      rfl

/-- The machine accepts the spellings of proper forms and nothing else. -/
theorem run_eq_finished_iff {found : List Symbol} {form : NormalForm} :
    start.run found = some (finished form) ↔ form.Proper ∧ form.spelling = found := by
  constructor
  · intro h
    exact run_reads h trivial
  · rintro ⟨hproper, rfl⟩
    exact run_spelling hproper

/-! ## Neighbours -/

/-- Whether the symbols that may follow are signs. Otherwise they are words. -/
def expectsSign : State → Bool
  | start => false
  | product _ => false
  | literal _ _ => false
  | _ => true

theorem isSign_eq_of_step {state next : State} {s : Symbol} (h : state.step s = some next) :
    s.isSign = state.expectsSign := by
  cases state <;> cases s <;> simp [step, Symbol.isSign, expectsSign] at h ⊢

theorem expectsSign_of_step {state next : State} {s : Symbol} (h : state.step s = some next)
    (hs : s.isSign = false) : next.expectsSign = true := by
  cases state <;> cases s <;> simp [step, Symbol.isSign] at h hs
  all_goals
    subst h
    rfl

/-- Behind a word the machine goes on with a sign only. -/
theorem apart_of_run {state last : State} {found : List Symbol} (h : state.run found = some last) :
    Apart found := by
  induction found generalizing state with
  | nil => exact .nil
  | cons s found ih =>
      rw [run_cons, Option.bind_eq_some_iff] at h
      obtain ⟨next, hstep, hrun⟩ := h
      refine List.isChain_cons.mpr ⟨?_, ih hrun⟩
      intro t ht
      cases found with
      | nil => simp at ht
      | cons t' found =>
          obtain rfl := Option.some.inj ht
          rw [run_cons, Option.bind_eq_some_iff] at hrun
          obtain ⟨afterwards, hstep', -⟩ := hrun
          cases hs : s.isSign with
          | true => exact .inl rfl
          | false => exact .inr ((isSign_eq_of_step hstep').trans (expectsSign_of_step hstep hs))

theorem conclude_eq_ok_iff {state : State} {offset : Nat} {form : NormalForm} :
    state.conclude offset = .ok form ↔ state = finished form := by
  cases state <;> simp [conclude]

end State

end NormalForm

end ArrayLogic
