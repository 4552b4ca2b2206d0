import SecondQuant.Event
import SecondQuant.Expr.Algebra

/-!
# Expanding antisymmetric tensors

An antisymmetric tensor with equally many upper and lower indices, at least two of each, is the
signed sum over the arrangements of its upper indices of tensors without symmetry.

* `nextArrangement?` — the next arrangement of a list in lexicographic order.
* `arrangements` — all arrangements of a list in ascending order.
* `Expr.expandAntisymmetric` — the expansion of every such tensor of an expression.
-/

namespace SecondQuant

/-! ## Arrangements -/

/-- Splits a list behind its last member that is greater than `i`, and returns the members before
it, the member and the members behind it. -/
def splitLastGreater? (i : Index) : List Index → Option (List Index × Index × List Index)
  | [] => none
  | j :: js =>
      match splitLastGreater? i js with
      | some (before, k, behind) => some (j :: before, k, behind)
      | none => if compare i j = .lt then some ([], j, js) else none

/-- The next arrangement of a list in lexicographic order; `none` for the last one.  The tail
moves on if it can; otherwise it is descending, the head changes places with the last member
greater than itself, and the tail starts again in ascending order. -/
def nextArrangement? : List Index → Option (List Index)
  | [] => none
  | i :: is =>
      match nextArrangement? is with
      | some js => some (i :: js)
      | none =>
          (splitLastGreater? i is).map fun s => s.2.1 :: (s.1 ++ i :: s.2.2).reverse

/-- A list followed by at most `fuel` next arrangements. -/
def arrangementsFrom : Nat → List Index → List (List Index)
  | 0, is => [is]
  | fuel + 1, is =>
      is :: match nextArrangement? is with
        | none => []
        | some js => arrangementsFrom fuel js

/-- The product of the numbers from 1 to the length of a list. -/
def arrangementBound : List Index → Nat
  | [] => 1
  | i :: is => (i :: is).length * arrangementBound is

/-- The distinct arrangements of a list in ascending order. -/
def arrangements (is : List Index) : List (List Index) :=
  arrangementsFrom (arrangementBound is) (sortBy compare is)

/-! ## Tensors -/

namespace Tensor

/-- Whether the tensor is expanded: an antisymmetric c-number with equally many upper and lower
indices, at least two of each. -/
def isExpandable (t : Tensor) : Bool :=
  t.symmetry == .antisymmetric && !t.isOperator && decide (1 < t.upper.length) &&
    t.upper.length == t.lower.length

/-- The signed words of an arrangement of the upper indices. -/
def arranged (t : Tensor) (is : List Index) : Rat × Word :=
  ((sortingSign is).toRat, [Tensor.cNumber t.name is t.lower .plain])

/-- The expansion of a tensor; one that is not expanded is brought into canonical form. -/
def expansionWords (t : Tensor) : WordSum :=
  if t.isExpandable then (arrangements t.upper).map t.arranged else t.canonicalWords

end Tensor

/-! ## Expressions -/

namespace Expr

/-- The expression with its antisymmetric tensors expanded. -/
def expandAntisymmetric (e : Expr) : Expr :=
  (e.expand Tensor.expansionWords).toExpr

/-- The events of `expandAntisymmetric`: one for each tensor that is expanded. -/
def expandAntisymmetricEvents (e : Expr) : List Event :=
  (e.leaves.filter Tensor.isExpandable).map fun t =>
    .expanded t.name (arrangements t.upper).length

end Expr

end SecondQuant
