import SecondQuant.Error
import SecondQuant.Pattern

/-!
# The operator chain of a term

A term splits into factors that commute with everything and a chain of elementary operators, and a
pattern picks pairs of operators from the chain.

* `Expr.scalars`, `Expr.operatorChain` — the two parts of a term; the chain exists when every
  operator is well formed.
* `links` — the operators that the pairs of a pattern join.
* `Link.obstruction?` — why the contraction of a pair is zero, if it is.
-/

namespace SecondQuant

/-- An elementary operator in a chain: the tensor it comes from, what it does and on which
index. -/
structure ChainOperator where
  source : Tensor
  ladder : Ladder
  index : Index
  deriving DecidableEq

namespace ChainOperator

/-- The operator that a tensor stands for; a malformed one is refused. -/
def ofTensor (t : Tensor) : Except Error ChainOperator :=
  match t.elementary? with
  | some (l, i) => .ok ⟨t, l, i⟩
  | none => .error (.malformed (.ambiguousOperator t.name))

/-- Whether the operator is fermionic. -/
def isFermion (o : ChainOperator) : Bool :=
  o.ladder.statistics == .fermion

end ChainOperator

namespace Expr

/-- The tensor of a factor that carries a ladder tag. -/
def operatorTensor? : Expr → Option Tensor
  | tensor t => if t.isOperator then some t else none
  | _ => none

/-- The factors of a term that are not operators. -/
def scalars (m : Expr) : List Expr :=
  m.factors.filter fun e => !e.isOperator

/-- The operators of a term in order; the first malformed one is reported. -/
def operatorChain (m : Expr) : Except Error (List ChainOperator) :=
  (m.factors.filterMap operatorTensor?).mapM ChainOperator.ofTensor

end Expr

/-! ## Pairs of operators -/

/-- A pair of positions with the operators that stand there. -/
structure Link where
  pair : Pair
  left : ChainOperator
  right : ChainOperator
  deriving DecidableEq

/-- The link of a pair within a chain. -/
def link? (chain : List ChainOperator) (p : Pair) : Option Link :=
  match chain[p.left]?, chain[p.right]? with
  | some l, some r => some ⟨p, l, r⟩
  | _, _ => none

/-- The links of a list of pairs, in order. -/
def links (chain : List ChainOperator) (ps : List Pair) : List Link :=
  ps.filterMap (link? chain)

/-- Why the contraction of two operators is zero. -/
inductive Obstruction where
  /-- The statistics differ, or both create or both annihilate. -/
  | incompatibleRoles
  /-- The two indices have no state in common. -/
  | disjointSpaces
  deriving DecidableEq

namespace Link

/-- Whether the operators differ in statistics or agree in action. -/
def hasIncompatibleRoles (l : Link) : Bool :=
  l.left.ladder.statistics != l.right.ladder.statistics ||
    l.left.ladder.action == l.right.ladder.action

/-- Whether the indices have no state in common. -/
def hasDisjointSpaces (l : Link) : Bool :=
  (l.left.index.space.meet? l.right.index.space).isNone

/-- Why the contraction of the link is zero, if it is; roles are looked at first. -/
def obstruction? (l : Link) : Option Obstruction :=
  if l.hasIncompatibleRoles then some .incompatibleRoles
  else if l.hasDisjointSpaces then some .disjointSpaces
  else none

end Link

end SecondQuant
