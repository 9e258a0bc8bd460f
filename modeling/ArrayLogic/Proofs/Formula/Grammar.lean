import ArrayLogic.Formula.Reader
import ArrayLogic.Proofs.Name

/-! # The grammar of expressions

An expression is written by the rules

    disjunction := parity ("|" parity)*
    parity      := conjunction ("^" conjunction)*
    conjunction := unary ("&" unary)*
    unary       := "~" unary | atom
    atom        := "(" disjunction ")" | word

in which a word is a constant, an input or a name. What an expression stands for is composed along
its derivation from what its words stand for. Chains of one operator associate to the left.
-/

namespace ArrayLogic.Formula

open Text (indexBound)

/-- What the words and the operators of an expression stand for. -/
structure Meaning (α : Type) where
  inputs : Nat
  lookup : String → Option α
  const : Bool → α
  input : Signal → α
  not : α → α
  and : α → α → α
  or : α → α → α
  xor : α → α → α

variable {α β : Type}

/-- What a word stands for. Numbers are written without leading zeros. -/
inductive Meaning.Word (m : Meaning α) : String → α → Prop
  | zero : m.Word "0" (m.const false)
  | one : m.Word "1" (m.const true)
  | input {k : Nat} (hk : k < m.inputs) :
      m.Word (String.ofList ('I' :: Nat.toDigits 10 k)) (m.input (.ofIndex k))
  | output {k : Nat} {a : α} (hk : k < indexBound) (ha : m.lookup (Name.output k) = some a) :
      m.Word (Name.output k) a
  | temporary {k : Nat} {a : α} (hk : k < indexBound) (ha : m.lookup (Name.temporary k) = some a) :
      m.Word (Name.temporary k) a

/-- The levels of precedence, tightest first. -/
inductive Level where
  | atom
  | unary
  | conjunction
  | parity
  | disjunction

/-- The symbols derive from a level of the grammar and stand for the value. -/
inductive Denotes (m : Meaning α) : Level → List Symbol → α → Prop
  | word {w : String} {a : α} (hw : m.Word w a) : Denotes m .atom [.word w] a
  | brackets {ss : List Symbol} {a : α} (inner : Denotes m .disjunction ss a) :
      Denotes m .atom (.opening :: ss ++ [.closing]) a
  | atom {ss : List Symbol} {a : α} (inner : Denotes m .atom ss a) : Denotes m .unary ss a
  | not {ss : List Symbol} {a : α} (inner : Denotes m .unary ss a) :
      Denotes m .unary (.not :: ss) (m.not a)
  | unary {ss : List Symbol} {a : α} (inner : Denotes m .unary ss a) : Denotes m .conjunction ss a
  | and {ss ts : List Symbol} {a b : α} (left : Denotes m .conjunction ss a)
      (right : Denotes m .unary ts b) : Denotes m .conjunction (ss ++ .and :: ts) (m.and a b)
  | conjunction {ss : List Symbol} {a : α} (inner : Denotes m .conjunction ss a) :
      Denotes m .parity ss a
  | xor {ss ts : List Symbol} {a b : α} (left : Denotes m .parity ss a)
      (right : Denotes m .conjunction ts b) : Denotes m .parity (ss ++ .xor :: ts) (m.xor a b)
  | parity {ss : List Symbol} {a : α} (inner : Denotes m .parity ss a) : Denotes m .disjunction ss a
  | or {ss ts : List Symbol} {a b : α} (left : Denotes m .disjunction ss a)
      (right : Denotes m .parity ts b) : Denotes m .disjunction (ss ++ .or :: ts) (m.or a b)

/-! ## Change of meaning -/

/-- One meaning is the image of another. -/
structure Meaning.Image (m : Meaning α) (f : α → β) (n : Meaning β) : Prop where
  inputs : n.inputs = m.inputs
  lookup : ∀ name, n.lookup name = (m.lookup name).map f
  const : ∀ value, n.const value = f (m.const value)
  input : ∀ s, n.input s = f (m.input s)
  not : ∀ a, n.not (f a) = f (m.not a)
  and : ∀ a b, n.and (f a) (f b) = f (m.and a b)
  or : ∀ a b, n.or (f a) (f b) = f (m.or a b)
  xor : ∀ a b, n.xor (f a) (f b) = f (m.xor a b)

theorem Meaning.Image.word {m : Meaning α} {f : α → β} {n : Meaning β} (h : m.Image f n)
    {w : String} {b : β} : n.Word w b ↔ ∃ a, m.Word w a ∧ f a = b := by
  constructor
  · intro hw
    cases hw with
    | zero => exact ⟨_, .zero, (h.const false).symm⟩
    | one => exact ⟨_, .one, (h.const true).symm⟩
    | input hk => exact ⟨_, .input (h.inputs ▸ hk), (h.input _).symm⟩
    | output hk hb =>
        rw [h.lookup] at hb
        obtain ⟨a, ha, rfl⟩ := Option.map_eq_some_iff.mp hb
        exact ⟨a, .output hk ha, rfl⟩
    | temporary hk hb =>
        rw [h.lookup] at hb
        obtain ⟨a, ha, rfl⟩ := Option.map_eq_some_iff.mp hb
        exact ⟨a, .temporary hk ha, rfl⟩
  · intro hparts
    obtain ⟨a, hw, rfl⟩ := hparts
    cases hw with
    | zero => exact h.const false ▸ .zero
    | one => exact h.const true ▸ .one
    | input hk => exact h.input _ ▸ .input (h.inputs ▸ hk)
    | output hk ha => exact .output hk (by rw [h.lookup, ha]; rfl)
    | temporary hk ha => exact .temporary hk (by rw [h.lookup, ha]; rfl)

/-- The derivations under an image are the images of the derivations. -/
theorem Meaning.Image.denotes {m : Meaning α} {f : α → β} {n : Meaning β} (h : m.Image f n)
    {level : Level} {ss : List Symbol} {b : β} :
    Denotes n level ss b ↔ ∃ a, Denotes m level ss a ∧ f a = b := by
  constructor
  · intro hb
    induction hb with
    | word hw =>
        obtain ⟨a, ha, rfl⟩ := h.word.mp hw
        exact ⟨a, .word ha, rfl⟩
    | brackets _ ih =>
        obtain ⟨a, ha, rfl⟩ := ih
        exact ⟨a, .brackets ha, rfl⟩
    | atom _ ih =>
        obtain ⟨a, ha, rfl⟩ := ih
        exact ⟨a, .atom ha, rfl⟩
    | not _ ih =>
        obtain ⟨a, ha, rfl⟩ := ih
        exact ⟨m.not a, .not ha, (h.not a).symm⟩
    | unary _ ih =>
        obtain ⟨a, ha, rfl⟩ := ih
        exact ⟨a, .unary ha, rfl⟩
    | and _ _ ihl ihr =>
        obtain ⟨a, ha, rfl⟩ := ihl
        obtain ⟨b, hb, rfl⟩ := ihr
        exact ⟨m.and a b, .and ha hb, (h.and a b).symm⟩
    | conjunction _ ih =>
        obtain ⟨a, ha, rfl⟩ := ih
        exact ⟨a, .conjunction ha, rfl⟩
    | xor _ _ ihl ihr =>
        obtain ⟨a, ha, rfl⟩ := ihl
        obtain ⟨b, hb, rfl⟩ := ihr
        exact ⟨m.xor a b, .xor ha hb, (h.xor a b).symm⟩
    | parity _ ih =>
        obtain ⟨a, ha, rfl⟩ := ih
        exact ⟨a, .parity ha, rfl⟩
    | or _ _ ihl ihr =>
        obtain ⟨a, ha, rfl⟩ := ihl
        obtain ⟨b, hb, rfl⟩ := ihr
        exact ⟨m.or a b, .or ha hb, (h.or a b).symm⟩
  · intro hparts
    obtain ⟨a, ha, rfl⟩ := hparts
    induction ha with
    | word hw => exact .word (h.word.mpr ⟨_, hw, rfl⟩)
    | brackets _ ih => exact .brackets ih
    | atom _ ih => exact .atom ih
    | not _ ih => exact h.not _ ▸ .not ih
    | unary _ ih => exact .unary ih
    | and _ _ ihl ihr => exact h.and _ _ ▸ .and ihl ihr
    | conjunction _ ih => exact .conjunction ih
    | xor _ _ ihl ihr => exact h.xor _ _ ▸ .xor ihl ihr
    | parity _ ih => exact .parity ih
    | or _ _ ihl ihr => exact h.or _ _ ▸ .or ihl ihr

/-! ## Formulas -/

/-- Formulas as what expressions stand for. -/
def Scope.meaning (scope : Scope) : Meaning Formula where
  inputs := scope.inputs
  lookup := scope.lookup
  const := .const
  input s := .lit (s.literal .direct)
  not := .not
  and := .and
  or := .or
  xor := .xor

theorem Scope.resolve_of_isDefinable {scope : Scope} {name : String} {f : Formula}
    (hname : Name.isDefinable name.toList = true) (hlookup : scope.lookup name = some f)
    (offset : Nat) : scope.resolve offset name = .ok f := by
  unfold resolve
  split
  next hchars => simp [hchars, Name.isDefinable] at hname
  next hchars => simp [hchars, Name.isDefinable] at hname
  next hchars => simp [hchars, Name.isDefinable] at hname
  next => rw [if_pos hname, hlookup]

/-- Resolution finds what a word stands for. -/
theorem Scope.resolve_of_word {scope : Scope} (hinputs : scope.inputs ≤ indexBound) {w : String}
    {f : Formula} (h : scope.meaning.Word w f) (offset : Nat) :
    scope.resolve offset w = .ok f := by
  cases h with
  | zero => rfl
  | one => rfl
  | @input k hk =>
      have hindex : k < indexBound := Nat.lt_of_lt_of_le hk hinputs
      have hk : k < scope.inputs := hk
      simp [resolve, Text.index?_toDigits hindex, hk, meaning]
  | @output k _ hk hlookup =>
      exact resolve_of_isDefinable (Name.isDefinable_iff.mpr ⟨k, hk, .inl rfl⟩) hlookup offset
  | @temporary k _ hk hlookup =>
      exact resolve_of_isDefinable (Name.isDefinable_iff.mpr ⟨k, hk, .inr rfl⟩) hlookup offset

theorem Scope.word_of_resolve {scope : Scope} {w : String} {f : Formula} {offset : Nat}
    (h : scope.resolve offset w = .ok f) : scope.meaning.Word w f := by
  have hw : w = String.ofList w.toList := String.ofList_toList.symm
  unfold resolve at h
  split at h
  next hchars =>
    obtain rfl := Except.ok.inj h
    rw [hw, hchars]
    exact .zero
  next hchars =>
    obtain rfl := Except.ok.inj h
    rw [hw, hchars]
    exact .one
  next digits hchars =>
    split at h
    next k hk =>
      split at h
      next hinputs =>
        obtain rfl := Except.ok.inj h
        rw [hw, hchars, (Text.index?_eq_some_iff.mp hk).1]
        exact .input hinputs
      · simp at h
    · simp at h
  next =>
    split at h
    next hdefinable =>
      split at h
      next g hlookup =>
        obtain rfl := Except.ok.inj h
        obtain ⟨k, hk, hname | hname⟩ := Name.isDefinable_iff.mp hdefinable
        · obtain rfl := String.toList_inj.mp hname
          exact .output hk hlookup
        · obtain rfl := String.toList_inj.mp hname
          exact .temporary hk hlookup
      · simp at h
    · simp at h

end ArrayLogic.Formula
