import SecondQuant.Expr.Algebra
import SecondQuant.Index.Context
import SecondQuant.Sorting

/-!
# Renumbering dummies

Dummies are summed over, so their numbers carry no meaning.  Each term is renumbered by first
appearance, in a reading order that looks at names, symmetries and spaces but not at numbers;
terms that differ by the numbers only may then merge.

* `Expr.readingOrder` — the c-numbers of a term by `Expr.blindCmp`, then its operators.
* `dummyTable` — each dummy with its new number within its space, by first appearance.
* `Expr.renumberDummies` — all terms renumbered and summed.
-/

namespace SecondQuant

/-! ## Numbering -/

/-- The distinct dummies of a list in order of first appearance. -/
def distinctDummies (is : List Index) : List Index :=
  (is.filter fun i => !i.external).eraseDups

theorem mem_distinctDummies {i : Index} {is : List Index} :
    i ∈ distinctDummies is ↔ i ∈ is ∧ i.external = false := by
  simp [distinctDummies]

/-- The fresh dummies of an empty context for the spaces of a list of indices. -/
def freshFor (is : List Index) : List Index :=
  ((Drawing.drawEach (is.map Index.space)).run IndexContext.empty).1

/-- The table that numbers each dummy of a list, within its space and from 1, by first
appearance. -/
def dummyTable (is : List Index) : List (Index × Index) :=
  let ds := distinctDummies is
  ds.zip (freshFor ds)

/-! ## Reading order -/

/-- Compares two indices by space and kind, without their numbers. -/
def Index.blindCmp : Index → Index → Ordering :=
  compareLex (compareOn Index.space) (compareOn Index.external)

/-- Compares two tensors by name, symmetry and the spaces of their indices. -/
def Tensor.blindCmp (s t : Tensor) : Ordering :=
  ((compare s.name t.name).then (compare s.symmetry t.symmetry)).then
    (List.compareLex Index.blindCmp s.indices t.indices)

namespace Expr

/-- Compares two factors without the numbers of their indices; all factors that are not tensors
come first. -/
def blindCmp : Expr → Expr → Ordering
  | tensor s, tensor t => s.blindCmp t
  | tensor _, _ => .gt
  | _, tensor _ => .lt
  | _, _ => .eq

/-- The factors of a term in the order in which its dummies are numbered. -/
def readingOrder (m : Expr) : List Expr :=
  sortBy blindCmp (m.factors.filter fun e => !e.isOperator) ++ m.factors.filter isOperator

/-! ## Renumbering -/

/-- A term with its dummies numbered by first appearance. -/
def renumberTerm (m : Expr) : Expr :=
  let es := m.readingOrder
  (product es).rename (Renaming.ofTable (dummyTable (es.flatMap indices)))

/-- The expression with the dummies of each term renumbered. -/
def renumberDummies (e : Expr) : Expr :=
  weightedSum (e.terms.map fun t => (t.1, t.2.renumberTerm))

end Expr

end SecondQuant
