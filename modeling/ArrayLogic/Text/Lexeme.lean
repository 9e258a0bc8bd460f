import ArrayLogic.Text.Layout

/-! # Lexemes

A text is cut into lexemes: maximal words, and single characters for everything else that is not a
separator. What starts a word and what goes on with it is the choice of the language being read.
Positions are byte offsets in the UTF-8 encoding of the text.
-/

namespace ArrayLogic.Text

/-- An item together with the byte offset at which it starts. -/
structure Located (α : Type) where
  offset : Nat
  item : α
deriving DecidableEq, Repr

/-- Which characters start a word and which go on with it. -/
structure WordRule where
  starts : Char → Bool
  continues : Char → Bool

/-- Whether a character belongs to one word with the text that follows it. -/
def WordRule.joins (rule : WordRule) (c : Char) (rest : List Char) : Bool :=
  rule.starts c && rest.head?.any rule.continues

/-- Puts a character in front of the first lexeme. -/
def consLexeme (offset : Nat) (c : Char) : List (Located (List Char)) → List (Located (List Char))
  | [] => [⟨offset, [c]⟩]
  | lexeme :: rest => ⟨offset, c :: lexeme.item⟩ :: rest

/-- The lexemes of a text that starts at the given offset. -/
def lexemes (rule : WordRule) : Nat → List Char → List (Located (List Char))
  | _, [] => []
  | offset, c :: rest =>
      let later := lexemes rule (offset + c.utf8Size) rest
      if isSeparator c then later
      else if rule.joins c rest then consLexeme offset c later
      else ⟨offset, [c]⟩ :: later

/-- A word that is not continued by the text behind it is one lexeme. -/
theorem lexemes_word {rule : WordRule} (hblank : ∀ c, rule.starts c = true → isSeparator c = false)
    (hstarts : ∀ c, rule.continues c = true → rule.starts c = true) {c : Char}
    (hc : rule.starts c = true) {word : List Char} (hword : ∀ d ∈ word, rule.continues d = true)
    {rest : List Char} (hrest : rest.head?.any rule.continues = false) (offset : Nat) :
    lexemes rule offset (c :: word ++ rest) =
      ⟨offset, c :: word⟩ ::
        lexemes rule ((c :: word).foldl (fun place d => place + d.utf8Size) offset) rest := by
  induction word generalizing c offset with
  | nil => simp [lexemes, hblank c hc, WordRule.joins, hrest]
  | cons d word ih =>
    have hd : rule.continues d = true := hword d List.mem_cons_self
    have hlater := ih (hstarts d hd) (fun x hx => hword x (List.mem_cons_of_mem _ hx))
      (offset + c.utf8Size)
    simp only [List.cons_append] at hlater
    rw [List.cons_append, List.cons_append, lexemes]
    simp [hblank c hc, WordRule.joins, hc, hd, hlater, consLexeme]

/-- A reader met something it could not go on with. Nothing is found at the end of the text, whose
offset is then its length. -/
structure Mismatch (Expectation : Type) where
  offset : Nat
  found : Option String
  expected : Expectation
deriving DecidableEq, Repr

end ArrayLogic.Text
