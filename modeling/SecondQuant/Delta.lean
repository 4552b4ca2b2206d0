import SecondQuant.Event
import SecondQuant.Expr.Algebra

/-!
# Eliminating deltas

A contraction leaves a delta between two indices.  If one of them is a dummy whose space contains
the other's, the delta can be eliminated by putting the other index in its place everywhere in the
term.  An external index is never replaced, and the index that stays is the one of the narrower
space.

* `Tensor.elimination?` — how a delta can be eliminated, if it can.
* `Expr.reduceDeltas` — all eliminations in all terms, one after the other.
* `Expr.reduceDeltasEvents` — what it reports.
-/

namespace SecondQuant

/-! ## One delta -/

/-- The name of a contraction in an orthonormal basis. -/
def deltaName : String := "δ"

/-- The elimination of a delta: nothing is renamed when it joins an index to itself, and otherwise
one index takes the place of another. -/
inductive Elimination where
  | trivial
  | replace (old new : Index)
  deriving DecidableEq

namespace Elimination

/-- The renaming of an elimination. -/
def toRenaming : Elimination → Renaming
  | trivial => id
  | replace old new => Renaming.replace old new

/-- How many indices are renamed. -/
def renamed : Elimination → Nat
  | trivial => 0
  | replace _ _ => 1

/-- How the delta of an upper and a lower index is eliminated.  The lower index goes if it is a
dummy and the upper one lies in the common space, and otherwise the upper one under the same
condition. -/
def ofIndices? (p q : Index) : Option Elimination :=
  if p = q then some .trivial
  else match p.space.meet? q.space with
    | none => none
    | some s =>
        if !q.external && p.space == s then some (.replace q p)
        else if !p.external && q.space == s then some (.replace p q)
        else none

end Elimination

/-- The upper and the lower index of a delta: a c-number of that name with one index in each
list. -/
def Tensor.delta? (t : Tensor) : Option (Index × Index) :=
  match t.upper, t.lower with
  | [p], [q] => if t.name = deltaName ∧ t.ladder = none then some (p, q) else none
  | _, _ => none

/-- How a tensor is eliminated, if it is a delta that can be. -/
def Tensor.elimination? (t : Tensor) : Option Elimination :=
  t.delta?.bind fun d => Elimination.ofIndices? d.1 d.2

namespace Expr

/-- How a factor is eliminated, if it is a delta that can be. -/
def elimination? : Expr → Option Elimination
  | tensor t => t.elimination?
  | _ => none

/-! ## One term -/

/-- A delta of a term that can be eliminated, how it is, and the other factors. -/
structure DeltaStep where
  factor : Expr
  elimination : Elimination
  others : List Expr

/-- The first factor of a list that can be eliminated. -/
def deltaStep? : List Expr → Option DeltaStep
  | [] => none
  | e :: es =>
      match e.elimination? with
      | some x => some ⟨e, x, es⟩
      | none => (deltaStep? es).map fun s => { s with others := e :: s.others }

/-- The term after a step: the delta is dropped and the rest renamed. -/
def DeltaStep.result (s : DeltaStep) : Expr :=
  (product s.others).rename s.elimination.toRenaming

/-- The event of a step. -/
def DeltaStep.event (s : DeltaStep) : Event :=
  .deltaEliminated s.factor s.elimination.renamed

/-- At most `fuel` eliminations in a term. -/
def eliminate : Nat → Expr → Expr
  | 0, m => m
  | fuel + 1, m =>
      match deltaStep? m.factors with
      | none => m
      | some s => eliminate fuel s.result

/-- The events of `eliminate`. -/
def eliminateEvents : Nat → Expr → List Event
  | 0, _ => []
  | fuel + 1, m =>
      match deltaStep? m.factors with
      | none => []
      | some s => s.event :: eliminateEvents fuel s.result

/-- A bound on the eliminations in a term: each one removes a leaf. -/
def eliminationBound (m : Expr) : Nat :=
  m.leaves.length

/-- A term without deltas that can be eliminated. -/
def reduceTerm (m : Expr) : Expr :=
  eliminate m.eliminationBound m

/-! ## All terms -/

/-- The expression with all deltas eliminated that can be. -/
def reduceDeltas (e : Expr) : Expr :=
  weightedSum (e.terms.map fun t => (t.1, t.2.reduceTerm))

/-- The events of `reduceDeltas`, term by term. -/
def reduceDeltasEvents (e : Expr) : List Event :=
  e.terms.flatMap fun t => eliminateEvents t.2.eliminationBound t.2

end Expr

end SecondQuant
