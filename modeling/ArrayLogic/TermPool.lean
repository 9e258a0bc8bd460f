import ArrayLogic.Term

/-! # Term pools

The outputs of a device share its product terms. The pool numbers the distinct terms of all outputs
by first occurrence; the number of a term is the column that the term is given.
-/

namespace ArrayLogic

/-- Distinct terms in column order. -/
structure TermPool where
  terms : List Term
  distinct : terms.Nodup
deriving DecidableEq

namespace TermPool

def empty : TermPool :=
  ⟨[], .nil⟩

/-- Gives a term the next column unless it has one. -/
def insert (pool : TermPool) (t : Term) : TermPool :=
  if h : t ∈ pool.terms then pool
  else ⟨pool.terms ++ [t], by
    refine List.nodup_append.mpr ⟨pool.distinct, by simp, ?_⟩
    intro a ha b hb heq
    exact h (List.mem_singleton.mp hb ▸ heq ▸ ha)⟩

/-- The pool of the terms of all outputs. -/
def ofOutputs (outputs : List (List Term)) : TermPool :=
  outputs.flatten.foldl insert empty

def size (pool : TermPool) : Nat :=
  pool.terms.length

def isEmpty (pool : TermPool) : Bool :=
  pool.terms.isEmpty

/-- The term of a column. -/
def term? (pool : TermPool) (column : Nat) : Option Term :=
  pool.terms[column]?

/-- The column of a term. -/
def column? (pool : TermPool) (t : Term) : Option Nat :=
  pool.terms.idxOf? t

end TermPool

end ArrayLogic
