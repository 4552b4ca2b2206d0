import SecondQuant.Contraction.Value
import SecondQuant.Dummy

/-!
# Contraction along a pattern

The vacuum mean of an expression along a pattern: in every term of its canonical form the pairs of
the pattern are contracted, the operators that are left stay in their order, and the results are
summed.  A pair of operators that cannot be contracted makes its term vanish; a pattern that does
not fit the chain of a term is an error.

* `contractTerm` — one term: its value, or why it vanishes.
* `contract` — all terms, with the deltas eliminated and the dummies renumbered if asked for.
* `vacuumMean` — the result alone, for a list of pairs and the standard options.
-/

namespace SecondQuant

/-- How contractions are evaluated: in an orthonormal basis or not, and with the deltas eliminated
and the dummies renumbered or not. -/
structure Options where
  orthonormal : Bool := true
  reduce : Bool := false
  deriving DecidableEq

/-! ## One term -/

/-- What becomes of a term: a value, or zero because of a pair. -/
inductive Outcome where
  | value (result : Expr)
  | vanishes (pair : Pair) (cause : Obstruction)
  deriving DecidableEq

namespace Outcome

/-- The value of a term that does not vanish. -/
def value? : Outcome → Option Expr
  | value e => some e
  | vanishes _ _ => none

/-- Whether the term vanishes. -/
def isVanishing : Outcome → Bool
  | value _ => false
  | vanishes _ _ => true

end Outcome

/-- The operators of a chain that a pattern leaves, in order. -/
def residue (chain : List ChainOperator) (M : Pattern) : List Expr :=
  (M.pairs.foldl Live.without (Live.ofChain chain)).map fun o => Expr.tensor o.1.source

/-- The factor that a sign adds to a product. -/
def signFactors : Sign → List Expr
  | .plus => []
  | .minus => [Expr.const (-1)]

/-- The product that a term becomes when no pair is obstructed. -/
def contractedProduct (o : Options) (M : Pattern) (scalars : List Expr)
    (chain : List ChainOperator) : Expr :=
  let ls := links chain M.pairs
  Expr.product <|
    scalars ++ signFactors (linksSign (Live.ofChain chain) ls) ++
      ls.map (Link.value o.orthonormal) ++ residue chain M

/-- The first obstructed link of a list. -/
def firstObstruction? (ls : List Link) : Option Outcome :=
  ls.findSome? fun l => l.obstruction?.map fun x => .vanishes l.pair x

/-- The outcome of the term of a given rank. -/
def contractTerm (o : Options) (M : Pattern) (rank : Nat) (m : Expr) : Except Error Outcome := do
  let chain ← m.operatorChain
  match M.outOfChain? chain.length with
  | some f => throw (.invalidPattern f (some ⟨rank, m⟩))
  | none =>
      return (firstObstruction? (links chain M.pairs)).getD
        (.value (contractedProduct o M m.scalars chain))

/-! ## All terms -/

/-- The outcomes of the terms of a canonical expression, each with its coefficient. -/
def contractTerms (o : Options) (M : Pattern) (ts : List Term) :
    Except Error (List (Rat × Outcome)) :=
  ts.zipIdx.mapM fun t => do
    let x ← contractTerm o M t.2 t.1.2
    return (t.1.1, x)

/-- The weighted sum of the terms that do not vanish. -/
def sumOfOutcomes (xs : List (Rat × Outcome)) : Expr :=
  Expr.weightedSum (xs.filterMap fun x => x.2.value?.map fun e => (x.1, e))

/-- A finished contraction: what it started from, what it gave, and how many terms were evaluated
and vanished. -/
structure Evaluation where
  source : Expr
  result : Expr
  evaluated : Nat
  vanished : Nat
  reduced : Bool
  deriving DecidableEq

namespace Evaluation

/-- The written form of the expression before the contraction. -/
def before (x : Evaluation) : String := x.source.latex

/-- The written form of the result. -/
def after (x : Evaluation) : String := x.result.latex

/-- The stages of the evaluation. -/
def note (x : Evaluation) : String :=
  "Canonisation -> Aplatissement -> Wick dirigé -> Somme" ++
    if x.reduced then " -> Réduction δ -> Renumérotation" else ""

end Evaluation

/-- The final result of a sum of outcomes. -/
def finish (o : Options) (e : Expr) : Expr :=
  if o.reduce then e.reduceDeltas.renumberDummies else e

/-- Contracts an expression along a pattern. -/
def contract (o : Options) (M : Pattern) (e : Expr) : Except Error Evaluation := do
  let source := e.canonical
  let xs ← contractTerms o M source.terms
  return {
    source
    result := finish o (sumOfOutcomes xs)
    evaluated := xs.length
    vanished := xs.countP fun x => x.2.isVanishing
    reduced := o.reduce }

/-- The mean of an expression along a list of pairs, with the standard options. -/
def vacuumMean (ps : List Pair) (e : Expr) : Except Error Expr := do
  let M ← Pattern.ofPairs ps
  let x ← contract {} M e
  return x.result

end SecondQuant
