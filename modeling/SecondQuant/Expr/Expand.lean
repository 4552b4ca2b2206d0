import SecondQuant.Expr
import SecondQuant.Word

/-!
# Expanding a tree into words

Multiplied out, an expression is a weighted sum of words.  The expansion is determined by what it
does to a single tensor, so it takes that as a parameter: the raw expansion keeps a tensor as it
is, the canonical one sorts its indices, and renaming, conjugation and antisymmetric expansion are
further choices.  Equal words are merged at every node of the tree, so a sum that cancels never
grows.

* `Expr.expand` — the expansion of a tree for a given expansion of its tensors.
* `Expr.expandFactors_cons` — a product expands into the product of the expansions.
-/

namespace SecondQuant

namespace Expr

mutual

/-- The tree multiplied out, each tensor replaced by `leaf`. -/
def expand (leaf : Tensor → WordSum) : Expr → WordSum
  | const r => WordSum.ofRat r
  | tensor t => WordSum.ofWords (leaf t)
  | sum ts => Combination.collect Word.cmp (expandTerms leaf ts)
  | prod es => expandFactors leaf es

/-- The expansions of weighted terms, one after the other. -/
def expandTerms (leaf : Tensor → WordSum) : List Term → List (Rat × Word)
  | [] => []
  | (c, e) :: ts => Combination.scale c (e.expand leaf) ++ expandTerms leaf ts

/-- The ordered product of factors, multiplied out; a factor that vanishes ends it. -/
def expandFactors (leaf : Tensor → WordSum) : List Expr → WordSum
  | [] => WordSum.one
  | e :: es =>
      match e.expand leaf with
      | [] => []
      | p => WordSum.mul p (expandFactors leaf es)

end

theorem expandFactors_cons (leaf : Tensor → WordSum) (e : Expr) (es : List Expr) :
    expandFactors leaf (e :: es) = WordSum.mul (e.expand leaf) (expandFactors leaf es) := by
  rw [expandFactors]
  split
  · next h => rw [h]; rfl
  · rfl

end Expr

end SecondQuant
