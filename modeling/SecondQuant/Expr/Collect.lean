import SecondQuant.Expr.Order
import SecondQuant.Word

/-!
# Collecting terms

Terms with the same monomial are merged, terms that cancel disappear, and what is left stands in
ascending order of its monomials.

* `Expr.collect` — a list of terms as a tree: no term makes 0, a single one needs no sum.
* `WordSum.toExpr` — the tree of a weighted sum of words.
* `Word.cmp_monomial` — words and their monomials are ordered alike, so a reduced sum of words is
  a collected sum of terms already.
-/

namespace SecondQuant

namespace Expr

/-- A coefficient in front of a monomial that has none of its own. -/
def scaled (c : Rat) (m : Expr) : Expr :=
  if c = 0 then zero
  else if c = 1 then m
  else match m with
    | const r => const (c * r)
    | prod es => prod (const c :: es)
    | e => prod [const c, e]

/-- The tree of a collected list: none make 0, a single term needs no sum. -/
def ofTerms : List Term → Expr
  | [] => zero
  | [(c, m)] => scaled c m
  | ts => sum ts

/-- The sum of terms, merged and in ascending order. -/
def collect (ts : List Term) : Expr :=
  ofTerms (Combination.collect cmp ts)

end Expr

/-! ## Words as monomials -/

/-- The product of the letters of a word. -/
def Word.monomial (w : Word) : Expr :=
  Expr.ofFactors (w.map Expr.tensor)

/-- The tree of a reduced sum of words. -/
def WordSum.toExpr (p : WordSum) : Expr :=
  Expr.ofTerms (p.map fun t => (t.1, t.2.monomial))

namespace Word

theorem cmpFactors_map : ∀ u v : Word, u.length = v.length →
    Expr.cmpFactors (u.map Expr.tensor) (v.map Expr.tensor) = compare u v
  | [], [], _ => rfl
  | s :: u, t :: v, h => by
      rw [List.map_cons, List.map_cons, Expr.cmpFactors, cmpFactors_map u v (Nat.succ.inj h),
        Expr.cmp, List.compare_cons_cons]

theorem then_of_ne {m n : Nat} (h : m ≠ n) (o o' : Ordering) :
    (compare m n).then o = (compare m n).then o' := by
  cases e : compare m n with
  | lt => rfl
  | gt => rfl
  | eq => exact absurd (Std.LawfulEqOrd.eq_of_compare e) h

theorem cmp_prod_map (u v : Word) :
    (Expr.prod (u.map Expr.tensor)).cmp (Expr.prod (v.map Expr.tensor)) = cmp u v := by
  rw [Expr.cmp, List.length_map, List.length_map]
  by_cases h : u.length = v.length
  · rw [cmpFactors_map u v h]
    rfl
  · exact then_of_ne h _ _

theorem cmp_singleton (s t : Tensor) : cmp [s] [t] = compare s t := by
  have h : compare [s] [t] = compare s t := by
    rw [List.compare_cons_cons, List.compare_nil_nil, Ordering.then_eq]
  exact h

/-- Monomials are ordered as their words are. -/
theorem cmp_monomial : ∀ u v : Word, u.monomial.cmp v.monomial = cmp u v
  | [], [] => Rational.cmp_self 1
  | [], [_] | [], _ :: _ :: _ | [_], [] | [_], _ :: _ :: _ | _ :: _ :: _, [] | _ :: _ :: _, [_] =>
      rfl
  | [s], [t] => (cmp_singleton s t).symm
  | s :: s' :: u, t :: t' :: v => cmp_prod_map (s :: s' :: u) (t :: t' :: v)

end Word

end SecondQuant
