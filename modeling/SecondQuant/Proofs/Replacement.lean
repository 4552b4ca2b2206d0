import SecondQuant.Proofs.IndexSupport
import SecondQuant.Proofs.TreeAlgebra

/-!
# Replacing tensors by trees

Renaming, conjugation and antisymmetric expansion expand every tensor of a tree in their own way.
What such an operation means is said by the plain tree in which each tensor is replaced by another
tree: the operation returns its canonical form.  A rule that expands c-numbers into c-numbers makes
a map that respects products and weighted sums, of any trees.

* `Expr.replace`, `Expr.eval_replace` — the tree with its tensors replaced, and its value.
* `Expr.toExpr_expand_eq` — an operation is the canonical form of a replacement.
* `LeafRule` — what is asked of the expansion of single tensors; `LeafRule.product` and
  `LeafRule.weightedSum` say that the operation respects products and sums.
-/

namespace SecondQuant

open OperatorAlgebra (gen lawful_gen)

namespace Expr

/-! ## Replacement -/

mutual

/-- The tree with every tensor replaced by a tree; nothing is brought into canonical form. -/
def replace (f : Tensor → Expr) : Expr → Expr
  | const r => const r
  | tensor t => f t
  | sum ts => sum (replaceTerms f ts)
  | prod es => prod (replaceFactors f es)

/-- The terms with the tensors of their expressions replaced. -/
def replaceTerms (f : Tensor → Expr) : List Term → List Term
  | [] => []
  | (c, e) :: ts => (c, e.replace f) :: replaceTerms f ts

/-- The factors with their tensors replaced. -/
def replaceFactors (f : Tensor → Expr) : List Expr → List Expr
  | [] => []
  | e :: es => e.replace f :: replaceFactors f es

end

section Evaluation

variable {A : Type} [Ring A] [Algebra ℚ A] (g : Tensor → A) (f : Tensor → Expr)

mutual

/-- Replacing the tensors of a tree amounts to evaluating it at the values of the replacements. -/
theorem eval_replace : ∀ e : Expr, (e.replace f).eval g = e.eval fun t => (f t).eval g
  | const _ => rfl
  | tensor _ => rfl
  | sum ts => eval_replaceTerms ts
  | prod es => eval_replaceFactors es

theorem eval_replaceTerms : ∀ ts : List Term,
    evalTerms g (replaceTerms f ts) = evalTerms (fun t => (f t).eval g) ts
  | [] => rfl
  | (c, e) :: ts => by
      rw [replaceTerms, evalTerms, eval_replace e, eval_replaceTerms ts, evalTerms]

theorem eval_replaceFactors : ∀ es : List Expr,
    evalFactors g (replaceFactors f es) = evalFactors (fun t => (f t).eval g) es
  | [] => rfl
  | e :: es => by
      rw [replaceFactors, evalFactors, eval_replace e, eval_replaceFactors es, evalFactors]

end

end Evaluation

/-! ## Operations that expand tensors -/

theorem denote_toExpr_expand (leaf : Tensor → WordSum) (e : Expr) :
    (e.expand leaf).toExpr.denote = e.eval fun t => WordSum.eval gen (leaf t) := by
  rw [denote, WordSum.eval_toExpr, eval_expand lawful_gen.commute]

/-- An operation that expands tensors into canonical ones returns the canonical form of the tree in
which each tensor is replaced by a tree of that meaning. -/
theorem toExpr_expand_eq {leaf : Tensor → WordSum} {f : Tensor → Expr} {e : Expr}
    (hcan : ∀ t, ∀ s ∈ leaf t, ∀ x ∈ s.2, x.IsCanonical)
    (h : ∀ t ∈ e.leaves, WordSum.eval gen (leaf t) = (f t).denote) :
    (e.expand leaf).toExpr = (e.replace f).canonical := by
  refine eq_of_denote_eq (isCanonical_toExpr_expand hcan e) (isCanonical_canonical _) ?_
  rw [denote_toExpr_expand, denote_canonical, denote, eval_replace]
  exact eval_eq_of_leaves e h

/-- The leaves of an operation are letters that the tensors of the tree expand to. -/
theorem forall_leaves_toExpr_expand {leaf : Tensor → WordSum} {e : Expr} {P : Tensor → Prop}
    (hcan : ∀ t, ∀ s ∈ leaf t, ∀ x ∈ s.2, x.IsCanonical)
    (h : ∀ t ∈ e.leaves, ∀ s ∈ leaf t, ∀ x ∈ s.2, P x) :
    ∀ x ∈ (e.expand leaf).toExpr.leaves, P x := by
  intro x hx
  rw [leaves_toExpr (isCanonical_expand fun t _ => hcan t)] at hx
  obtain ⟨s, hs, hx⟩ := List.mem_flatMap.mp hx
  exact ((built_expand e h).2 s hs).2 x hx

end Expr

/-! ## Rules for single tensors -/

section Commute

variable {A : Type} [Ring A] [Algebra ℚ A] {g : Tensor → A}

/-- What commutes with the values of all letters commutes with the value of a sum of words. -/
theorem WordSum.commute_eval {x : A} {p : WordSum}
    (h : ∀ s ∈ p, ∀ t ∈ s.2, Commute x (g t)) : Commute x (p.eval g) := by
  have hword : ∀ {w : Word}, (∀ t ∈ w, Commute x (g t)) → Commute x (w.eval g) := by
    intro w hw
    exact Commute.list_prod_right _ x (List.forall_mem_map.mpr hw)
  induction p with
  | nil => exact Commute.zero_right x
  | cons s p ih =>
      obtain ⟨hs, hp⟩ := List.forall_mem_cons.mp h
      rw [eval_cons]
      exact ((hword hs).smul_right s.1).add_right (ih hp)

/-- Expanded c-numbers commute with everything when they are expanded into c-numbers. -/
theorem commute_eval_of_cNumbers {leaf : Tensor → WordSum} (hg : CNumbersCommute g)
    (h : ∀ t, t.isOperator = false → ∀ s ∈ leaf t, ∀ x ∈ s.2, x.isOperator = false) :
    CNumbersCommute fun t => WordSum.eval g (leaf t) := by
  intro s t hs
  refine WordSum.commute_eval fun v _ y _ => (WordSum.commute_eval fun u hu x hx => ?_).symm
  exact (hg x y (h s hs u hu x hx)).symm

end Commute

/-- What is asked of the expansion of single tensors: the letters are canonical, and those of
c-numbers are c-numbers. -/
structure LeafRule (leaf : Tensor → WordSum) : Prop where
  isCanonical : ∀ t, ∀ s ∈ leaf t, ∀ x ∈ s.2, x.IsCanonical
  cNumbers : ∀ t, t.isOperator = false → ∀ s ∈ leaf t, ∀ x ∈ s.2, x.isOperator = false

namespace LeafRule

variable {leaf : Tensor → WordSum}

/-- An expanded product is the product of the expanded factors. -/
theorem product (h : LeafRule leaf) (es : List Expr) :
    ((Expr.product es).expand leaf).toExpr =
      Expr.product (es.map fun e => (e.expand leaf).toExpr) := by
  have hcan : ∀ e : Expr, (e.expand leaf).toExpr.IsCanonical :=
    Expr.isCanonical_toExpr_expand h.isCanonical
  refine Expr.eq_of_denote_eq (hcan _)
    (Expr.isCanonical_product (List.forall_mem_map.mpr fun e _ => hcan e)) ?_
  rw [Expr.denote_toExpr_expand,
    Expr.eval_product (commute_eval_of_cNumbers lawful_gen.commute h.cNumbers),
    Expr.denote_product, List.map_map]
  exact congrArg List.prod (List.map_congr_left fun e _ => (Expr.denote_toExpr_expand leaf e).symm)

/-- An expanded weighted sum is the weighted sum of the expanded members. -/
theorem weightedSum (h : LeafRule leaf) (ts : List Term) :
    ((Expr.weightedSum ts).expand leaf).toExpr =
      Expr.weightedSum (ts.map fun t => (t.1, (t.2.expand leaf).toExpr)) := by
  have hcan : ∀ e : Expr, (e.expand leaf).toExpr.IsCanonical :=
    Expr.isCanonical_toExpr_expand h.isCanonical
  refine Expr.eq_of_denote_eq (hcan _)
    (Expr.isCanonical_weightedSum (List.forall_mem_map.mpr fun t _ => hcan t.2)) ?_
  rw [Expr.denote_toExpr_expand, Expr.eval_weightedSum, Expr.denote_weightedSum]
  refine .trans ?_ (Combination.eval_map Expr.denote (fun e => (e.expand leaf).toExpr) ts).symm
  exact Combination.eval_congr fun t _ => (Expr.denote_toExpr_expand leaf t.2).symm

end LeafRule

end SecondQuant
