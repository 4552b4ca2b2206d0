import SecondQuant.Contraction

/-!
# The events of a contraction

Each term reports its outcome, the reduction its eliminations, and a finished contraction its
counts.  When a term fails, the events of the terms before it stand.
-/

namespace SecondQuant

/-- The event of an obstructed pair. -/
def Obstruction.event : Obstruction → Pair → Event
  | .incompatibleRoles, p => .incompatibleRoles p.left p.right
  | .disjointSpaces, p => .disjointSpaces p.left p.right

/-- The events of the outcome of a term. -/
def Outcome.events (rank : Nat) : Outcome → List Event
  | .value e => [.termValue rank e]
  | .vanishes p x => [x.event p, .termVanishes rank]

/-- The events of a list of terms, up to the first one that fails. -/
def contractTermsEvents (o : Options) (M : Pattern) : List (Term × Nat) → List Event
  | [] => []
  | t :: ts =>
      match contractTerm o M t.2 t.1.2 with
      | .error _ => []
      | .ok x => x.events t.2 ++ contractTermsEvents o M ts

/-- The events of the reduction of a sum of outcomes. -/
def finishEvents (o : Options) (e : Expr) : List Event :=
  if o.reduce then e.reduceDeltasEvents else []

/-- The events of `contract`. -/
def contractEvents (o : Options) (M : Pattern) (e : Expr) : List Event :=
  let ts := e.canonical.terms
  contractTermsEvents o M ts.zipIdx ++
    match contractTerms o M ts with
    | .error _ => []
    | .ok xs =>
        finishEvents o (sumOfOutcomes xs) ++
          [.contracted M.pairs.length xs.length (xs.countP fun x => x.2.isVanishing)]

/-- The events of `vacuumMean`. -/
def vacuumMeanEvents (ps : List Pair) (e : Expr) : List Event :=
  match Pattern.ofPairs ps with
  | .error _ => []
  | .ok M => contractEvents {} M e

end SecondQuant
