import SecondQuant.Contraction.Chain
import SecondQuant.Delta
import SecondQuant.Sign

/-!
# Signs and values of contractions

A contraction contributes a sign and a value.  The sign counts the fermions that stand between the
two operators and have not been contracted before, and one more exchange if the pair is written
from right to left.  The value is a delta between the two indices, or an overlap when the basis is
not orthonormal.

* `Live` — the operators that earlier pairs have left, with their positions.
* `linksSign` — the sign of all links of a pattern, one after the other.
* `Link.value` — the value of a single link.
-/

namespace SecondQuant

/-! ## Signs -/

/-- Operators of a chain, each with its position. -/
abbrev Live := List (ChainOperator × Nat)

namespace Live

/-- All operators of a chain. -/
def ofChain (chain : List ChainOperator) : Live :=
  chain.zipIdx

/-- The operators that do not stand at the positions of a pair. -/
def without (live : Live) (p : Pair) : Live :=
  live.filter fun o => o.2 != p.left && o.2 != p.right

/-- The number of fermions strictly between the positions of a pair. -/
def fermionsWithin (live : Live) (p : Pair) : Nat :=
  live.countP fun o => o.1.isFermion && decide (p.low < o.2) && decide (o.2 < p.high)

/-- The exchanges that bring the operators of a pair side by side in the order of the pair. -/
def exchanges (live : Live) (p : Pair) : Nat :=
  live.fermionsWithin p + if p.isReversed then 1 else 0

end Live

/-- The sign of one link among the operators that are left; bosons have none. -/
def Link.sign (live : Live) (l : Link) : Sign :=
  if l.left.isFermion then Sign.ofParity (live.exchanges l.pair) else .plus

/-- The sign of a list of links; each link takes its operators away. -/
def linksSign : Live → List Link → Sign
  | _, [] => .plus
  | live, l :: ls => l.sign live * linksSign (live.without l.pair) ls

/-! ## Values -/

/-- The name of a contraction in a basis that is not orthonormal. -/
def overlapName : String := "s"

/-- The tensor of that name between two indices, the smaller one above. -/
def Tensor.between (name : String) (i j : Index) : Tensor :=
  if (compare i j).isLE then Tensor.cNumber name [i] [j] .plain
  else Tensor.cNumber name [j] [i] .plain

/-- The value of a contraction between two indices: 1 when they are the same state of an
orthonormal basis, and otherwise a delta or an overlap. -/
def contractionValue (orthonormal : Bool) (i j : Index) : Expr :=
  if orthonormal then
    if i = j then Expr.one else Expr.tensor (Tensor.between deltaName i j)
  else Expr.tensor (Tensor.between overlapName i j)

/-- The value of a link. -/
def Link.value (orthonormal : Bool) (l : Link) : Expr :=
  contractionValue orthonormal l.left.index l.right.index

end SecondQuant
