import ArrayLogic.Cube

/-! # Cube algebra

Conjunction adds the literals of one cube to the other, one by one. Each addition keeps the order of
the codes, adds exactly one literal, and fails only against the complement of that literal. What a
conjunction means, contains and preserves follows by induction on the added literals.
-/

namespace ArrayLogic

/-- Two literals of one signal that differ are complements, so one of them is false. -/
theorem Literal.eval_and_eval_of_signal_eq {k l : Literal} (hne : l ≠ k)
    (hsignal : l.signal = k.signal) (v : Assignment) : (l.eval v && k.eval v) = false := by
  rcases k with ⟨signal, p⟩
  rcases l with ⟨signal', q⟩
  obtain rfl : signal' = signal := hsignal
  have hpolarity : q ≠ p := fun heq => hne (by rw [heq])
  cases p <;> cases q <;> simp_all [eval, Polarity.apply, Polarity.isComplement]

theorem Literal.code_div_two (l : Literal) : l.code / 2 = l.index := by
  rcases l with ⟨s, polarity⟩
  cases polarity
  · simp [code, index, Polarity.offset]
  · simp only [code, index, Polarity.offset]
    omega

namespace Cube

/-! ## Adding a literal -/

/-- An addition that fails has the value of a contradiction. -/
theorem any_eval_insert? (l : Literal) (literals : List Literal) (v : Assignment) :
    ((insert? l literals).any fun added => added.all (·.eval v)) =
      (l.eval v && literals.all (·.eval v)) := by
  induction literals with
  | nil => simp [insert?]
  | cons k rest ih =>
      rw [insert?]
      split
      next heq =>
        subst heq
        simp
      next hne =>
        split
        next hsignal =>
          have hfalse := Literal.eval_and_eval_of_signal_eq hne hsignal v
          rw [List.all_cons, ← Bool.and_assoc, hfalse]
          rfl
        next =>
          split
          · rfl
          · have hcons : ((insert? l rest).map (k :: ·)).any (fun added => added.all (·.eval v)) =
                (k.eval v && (insert? l rest).any fun added => added.all (·.eval v)) := by
              cases insert? l rest <;> simp
            rw [hcons, ih, List.all_cons, Bool.and_left_comm]

theorem mem_of_insert? {l : Literal} {literals added : List Literal}
    (h : insert? l literals = some added) {k : Literal} :
    k ∈ added ↔ k = l ∨ k ∈ literals := by
  induction literals generalizing added with
  | nil =>
      obtain rfl : [l] = added := by simpa [insert?] using h
      simp
  | cons j rest ih =>
      rw [insert?] at h
      split at h
      next heq =>
        obtain rfl : j :: rest = added := by simpa using h
        subst heq
        simp
      next =>
        split at h
        · simp at h
        · split at h
          · obtain rfl : l :: j :: rest = added := by simpa using h
            simp
          · obtain ⟨later, hlater, rfl⟩ := Option.map_eq_some_iff.mp h
            rw [List.mem_cons, ih hlater, List.mem_cons]
            exact or_left_comm

/-! ## Order -/

/-- The literals stand in increasing order of their signals. No signal occurs twice, so the cube is
neither redundant nor contradictory. -/
def Ordered (c : Cube) : Prop :=
  c.literals.Pairwise (·.index < ·.index)

theorem ordered_empty : empty.Ordered :=
  List.Pairwise.nil

theorem ordered_ofLiteral (l : Literal) : (ofLiteral l).Ordered :=
  List.pairwise_singleton _ l

theorem Ordered.code_lt {c : Cube} (h : c.Ordered) : c.literals.Pairwise (·.code < ·.code) := by
  refine h.imp ?_
  intro k l hindex
  have hk := k.code_div_two
  have hl := l.code_div_two
  omega

theorem index_lt_of_code_lt {k l : Literal} (hsignal : l.signal ≠ k.signal)
    (hcode : l.code < k.code) : l.index < k.index := by
  have hindex : l.index ≠ k.index := by
    intro heq
    apply hsignal
    rw [← Signal.ofIndex_index l.signal, ← Signal.ofIndex_index k.signal]
    exact congrArg Signal.ofIndex heq
  have hl := l.code_div_two
  have hk := k.code_div_two
  omega

theorem pairwise_of_insert? {l : Literal} {literals added : List Literal}
    (hordered : literals.Pairwise (·.index < ·.index)) (h : insert? l literals = some added) :
    added.Pairwise (·.index < ·.index) := by
  induction literals generalizing added with
  | nil =>
      obtain rfl : [l] = added := by simpa [insert?] using h
      exact List.pairwise_singleton _ l
  | cons k rest ih =>
      obtain ⟨hk, hrest⟩ := List.pairwise_cons.mp hordered
      rw [insert?] at h
      split at h
      next =>
        obtain rfl : k :: rest = added := by simpa using h
        exact hordered
      next hne =>
        split at h
        · simp at h
        next hsignal =>
          split at h
          next hcode =>
            obtain rfl : l :: k :: rest = added := by simpa using h
            have hlt := index_lt_of_code_lt hsignal hcode
            refine List.pairwise_cons.mpr ⟨?_, hordered⟩
            intro j hj
            rcases List.mem_cons.mp hj with rfl | hj
            · exact hlt
            · exact Nat.lt_trans hlt (hk j hj)
          next hcode =>
            obtain ⟨later, hlater, rfl⟩ := Option.map_eq_some_iff.mp h
            have hgt : k.code < l.code := by
              have hcodes : l.code ≠ k.code := fun heq => hne (Literal.code_injective heq)
              omega
            refine List.pairwise_cons.mpr ⟨?_, ih hrest hlater⟩
            intro j hj
            rcases (mem_of_insert? hlater).mp hj with rfl | hj
            · exact index_lt_of_code_lt (Ne.symm hsignal) hgt
            · exact hk j hj

/-! ## Conjunction -/

/-- The conjunction adds the literals of `b` to those of `a`. -/
theorem and_eq_some_iff {a b c : Cube} : a.and b = some c ↔
    b.literals.foldlM (fun literals l => insert? l literals) a.literals = some c.literals := by
  rcases c with ⟨literals⟩
  simp [and]

theorem any_eval_foldlM (added literals : List Literal) (v : Assignment) :
    ((added.foldlM (fun literals l => insert? l literals) literals).any
        fun result => result.all (·.eval v)) =
      (literals.all (·.eval v) && added.all (·.eval v)) := by
  induction added generalizing literals with
  | nil => simp
  | cons l rest ih =>
      have hstep := any_eval_insert? l literals v
      rw [List.foldlM_cons, List.all_cons]
      cases hinsert : insert? l literals with
      | none =>
          rw [hinsert] at hstep
          rw [← Bool.and_assoc, Bool.and_comm (literals.all _), ← hstep]
          rfl
      | some next =>
          rw [hinsert] at hstep
          rw [← Bool.and_assoc, Bool.and_comm (literals.all _), ← hstep]
          exact ih next

/-- A conjunction is true where both cubes are; without a result that is nowhere. -/
theorem any_eval_and (a b : Cube) (v : Assignment) :
    ((a.and b).any (·.eval v)) = (a.eval v && b.eval v) := by
  rw [and, Option.any_map]
  exact any_eval_foldlM b.literals a.literals v

theorem mem_of_foldlM {added literals result : List Literal}
    (h : added.foldlM (fun literals l => insert? l literals) literals = some result)
    {l : Literal} : l ∈ result ↔ l ∈ literals ∨ l ∈ added := by
  induction added generalizing literals with
  | nil =>
      obtain rfl : literals = result := by simpa using h
      simp
  | cons k rest ih =>
      rw [List.foldlM_cons] at h
      obtain ⟨next, hnext, hresult⟩ := Option.bind_eq_some_iff.mp h
      rw [ih hresult, mem_of_insert? hnext, List.mem_cons, or_assoc, or_left_comm]

theorem pairwise_of_foldlM {added literals result : List Literal}
    (hordered : literals.Pairwise (·.index < ·.index))
    (h : added.foldlM (fun literals l => insert? l literals) literals = some result) :
    result.Pairwise (·.index < ·.index) := by
  induction added generalizing literals with
  | nil =>
      obtain rfl : literals = result := by simpa using h
      exact hordered
  | cons k rest ih =>
      rw [List.foldlM_cons] at h
      obtain ⟨next, hnext, hresult⟩ := Option.bind_eq_some_iff.mp h
      exact ih (pairwise_of_insert? hordered hnext) hresult

/-- A conjunction has the literals of both cubes and no other. -/
theorem mem_literals_and {a b c : Cube} (h : a.and b = some c) {l : Literal} :
    l ∈ c.literals ↔ l ∈ a.literals ∨ l ∈ b.literals :=
  mem_of_foldlM (and_eq_some_iff.mp h)

theorem Ordered.and {a b c : Cube} (ha : a.Ordered) (h : a.and b = some c) : c.Ordered :=
  pairwise_of_foldlM ha (and_eq_some_iff.mp h)

/-- The cubes that the empty one, the literals and conjunction can build. -/
inductive Reachable : Cube → Prop
  | empty : Reachable .empty
  | ofLiteral (l : Literal) : Reachable (.ofLiteral l)
  | and {a b c : Cube} : Reachable a → Reachable b → a.and b = some c → Reachable c

theorem Reachable.ordered {c : Cube} (h : c.Reachable) : c.Ordered := by
  induction h with
  | empty => exact ordered_empty
  | ofLiteral l => exact ordered_ofLiteral l
  | and _ _ hand iha _ => exact iha.and hand

end Cube

end ArrayLogic
