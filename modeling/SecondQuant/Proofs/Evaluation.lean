import Mathlib.Algebra.Algebra.Basic
import SecondQuant.Expr.Algebra
import SecondQuant.Proofs.LinearExtension

/-!
# Evaluating trees in an algebra

An assignment of tensors to elements of a ℚ-algebra evaluates every tree: sums and products of the
tree become sums and products of the algebra.  The library multiplies out, sorts and collects
words instead; this file shows that nothing of that changes the value, as long as the assignment
lets c-numbers commute with everything.

* `Expr.eval`, `WordSum.eval` — the value of a tree and of a sum of words.
* `Expr.eval_expand` — expanding a tree amounts to evaluating it at the expansions of its tensors.
* `WordSum.eval_toExpr` — the tree of a sum of words has the value of the sum.
* `Expr.eval_weightedSum`, `Expr.eval_product` — the operations on lists are sums and products.
-/

namespace SecondQuant

variable {A : Type} [Ring A]

/-! ## Words -/

/-- The value of a word: the product of the values of its tensors. -/
def Word.eval (g : Tensor → A) (w : Word) : A :=
  (w.map g).prod

/-- Whether the values of c-numbers commute with those of all tensors. -/
def CNumbersCommute (g : Tensor → A) : Prop :=
  ∀ s t : Tensor, s.isOperator = false → Commute (g s) (g t)

namespace Word

variable {g : Tensor → A}

@[simp] theorem eval_nil (g : Tensor → A) : eval g [] = 1 := rfl

@[simp] theorem eval_cons (g : Tensor → A) (t : Tensor) (w : Word) :
    eval g (t :: w) = g t * eval g w := by
  rw [eval, List.map_cons, List.prod_cons, eval]

@[simp] theorem eval_append (g : Tensor → A) (u v : Word) :
    eval g (u ++ v) = eval g u * eval g v := by
  rw [eval, List.map_append, List.prod_append, eval, eval]

theorem eval_insertBy (hg : CNumbersCommute g) (t : Tensor) (w : Word) :
    eval g (insertBy Tensor.placeCmp t w) = g t * eval g w := by
  induction w with
  | nil => rw [insertBy, eval_cons]
  | cons s w ih =>
      rw [insertBy]
      split
      · rw [eval_cons]
      · next h =>
          have hst : g s * g t = g t * g s := hg s t (Tensor.isOperator_of_not_isLE h)
          rw [eval_cons, ih, eval_cons, ← mul_assoc, hst, mul_assoc]

/-- Sorting the c-numbers of a word keeps its value. -/
theorem eval_normal (hg : CNumbersCommute g) (w : Word) : eval g w.normal = eval g w := by
  rw [normal]
  induction w with
  | nil => rfl
  | cons t w ih => rw [sortBy, eval_insertBy hg, ih, eval_cons]

theorem eval_mul (hg : CNumbersCommute g) (u v : Word) :
    eval g (u.mul v) = eval g u * eval g v := by
  rw [mul]
  induction u with
  | nil => rw [insertEach, eval_nil, one_mul]
  | cons t u ih => rw [insertEach, eval_insertBy hg, ih, eval_cons, mul_assoc]

end Word

variable [Algebra ℚ A]

/-! ## Values -/

/-- The value of a weighted sum of words. -/
def WordSum.eval (g : Tensor → A) (p : WordSum) : A :=
  Combination.eval (Word.eval g) p

namespace Expr

mutual

/-- The value of a tree: weighted sums and ordered products are those of the algebra. -/
def eval (g : Tensor → A) : Expr → A
  | const r => algebraMap ℚ A r
  | tensor t => g t
  | sum ts => evalTerms g ts
  | prod es => evalFactors g es

/-- The weighted sum of the values of terms. -/
def evalTerms (g : Tensor → A) : List Term → A
  | [] => 0
  | (c, e) :: ts => c • e.eval g + evalTerms g ts

/-- The ordered product of the values of factors. -/
def evalFactors (g : Tensor → A) : List Expr → A
  | [] => 1
  | e :: es => e.eval g * evalFactors g es

end

theorem evalTerms_eq (g : Tensor → A) (ts : List Term) :
    evalTerms g ts = Combination.eval (eval g) ts := by
  induction ts with
  | nil => rfl
  | cons t ts ih => rw [evalTerms, ih, Combination.eval_cons]

theorem evalFactors_eq (g : Tensor → A) (es : List Expr) :
    evalFactors g es = (es.map (eval g)).prod := by
  induction es with
  | nil => rfl
  | cons e es ih => rw [evalFactors, ih, List.map_cons, List.prod_cons]

theorem eval_sum (g : Tensor → A) (ts : List Term) :
    (sum ts).eval g = Combination.eval (eval g) ts :=
  evalTerms_eq g ts

theorem eval_prod (g : Tensor → A) (es : List Expr) :
    (prod es).eval g = (es.map (eval g)).prod :=
  evalFactors_eq g es

theorem eval_const (g : Tensor → A) (r : ℚ) : (const r).eval g = r • 1 :=
  Algebra.algebraMap_eq_smul_one r

@[simp] theorem eval_one (g : Tensor → A) : one.eval g = 1 :=
  map_one (algebraMap ℚ A)

@[simp] theorem eval_zero (g : Tensor → A) : zero.eval g = 0 :=
  map_zero (algebraMap ℚ A)

end Expr

/-! ## Sums of words -/

namespace WordSum

variable {g : Tensor → A}

@[simp] theorem eval_nil (g : Tensor → A) : eval g [] = 0 := rfl

@[simp] theorem eval_cons (g : Tensor → A) (t : ℚ × Word) (p : WordSum) :
    eval g (t :: p) = t.1 • Word.eval g t.2 + eval g p :=
  Combination.eval_cons (Word.eval g) t p

theorem eval_ofRat (g : Tensor → A) (r : ℚ) : eval g (ofRat r) = r • 1 := by
  rw [ofRat, eval, Combination.eval_single, Word.eval_nil]

theorem eval_one (g : Tensor → A) : eval g one = 1 := by
  rw [one, eval_cons, eval_nil, Word.eval_nil, one_smul, add_zero]

theorem eval_ofWords (hg : CNumbersCommute g) (p : WordSum) : eval g (ofWords p) = eval g p := by
  rw [ofWords, eval, Combination.eval_collect, Combination.eval_map]
  exact Combination.eval_congr fun t _ => Word.eval_normal hg t.2

theorem eval_mul_right (hg : CNumbersCommute g) (s : ℚ × Word) (q : WordSum) :
    Combination.eval (Word.eval g) (q.map fun t => (s.1 * t.1, s.2.mul t.2)) =
      (s.1 • Word.eval g s.2) * eval g q := by
  induction q with
  | nil => exact (mul_zero _).symm
  | cons t q ih =>
      rw [List.map_cons, Combination.eval_cons, ih, eval_cons, mul_add, Word.eval_mul hg,
        smul_mul_smul_comm]

theorem eval_mul (hg : CNumbersCommute g) (p q : WordSum) :
    eval g (p.mul q) = eval g p * eval g q := by
  rw [mul, eval, Combination.eval_collect]
  induction p with
  | nil => exact (zero_mul _).symm
  | cons s p ih =>
      rw [List.flatMap_cons, Combination.eval_append, ih, eval_mul_right hg, eval_cons, add_mul]

end WordSum

/-! ## Expansions -/

namespace Expr

variable {g : Tensor → A}

mutual

/-- Expanding a tree amounts to evaluating it at the expansions of its tensors. -/
theorem eval_expand (hg : CNumbersCommute g) (leaf : Tensor → WordSum) :
    ∀ e : Expr, WordSum.eval g (e.expand leaf) = e.eval fun t => WordSum.eval g (leaf t)
  | const r => by rw [expand, WordSum.eval_ofRat, eval_const]
  | tensor t => by rw [expand, WordSum.eval_ofWords hg, eval]
  | sum ts => by
      rw [expand, WordSum.eval, Combination.eval_collect, eval_expandTerms hg leaf ts, eval]
  | prod es => by rw [expand, eval_expandFactors hg leaf es, eval]

theorem eval_expandTerms (hg : CNumbersCommute g) (leaf : Tensor → WordSum) :
    ∀ ts : List Term, Combination.eval (Word.eval g) (expandTerms leaf ts) =
      evalTerms (fun t => WordSum.eval g (leaf t)) ts
  | [] => rfl
  | (c, e) :: ts => by
      have he := eval_expand hg leaf e
      rw [WordSum.eval] at he
      rw [expandTerms, Combination.eval_append, Combination.eval_scale, he,
        eval_expandTerms hg leaf ts, evalTerms]

theorem eval_expandFactors (hg : CNumbersCommute g) (leaf : Tensor → WordSum) :
    ∀ es : List Expr, WordSum.eval g (expandFactors leaf es) =
      evalFactors (fun t => WordSum.eval g (leaf t)) es
  | [] => by rw [expandFactors, WordSum.eval_one, evalFactors]
  | e :: es => by
      rw [expandFactors_cons, WordSum.eval_mul hg, eval_expand hg leaf e,
        eval_expandFactors hg leaf es, evalFactors]

end

end Expr

/-! ## Trees of collected terms -/

namespace Expr

variable (g : Tensor → A)

theorem eval_ofFactors (es : List Expr) : (ofFactors es).eval g = (es.map (eval g)).prod := by
  match es with
  | [] => exact eval_one g
  | [e] => rw [ofFactors, List.map_singleton, List.prod_singleton]
  | d :: e :: es => exact eval_prod g _

theorem eval_prod_const (c : ℚ) (es : List Expr) :
    (prod (const c :: es)).eval g = c • (es.map (eval g)).prod := by
  rw [eval_prod, List.map_cons, List.prod_cons, eval_const, smul_mul_assoc, one_mul]

theorem eval_scaled (c : ℚ) (m : Expr) : (scaled c m).eval g = c • m.eval g := by
  unfold scaled
  split
  · next h => rw [eval_zero, h, zero_smul]
  · split
    · next h => rw [h, one_smul]
    · cases m with
      | const r => simp only [eval_const, mul_smul]
      | prod es => simp only [eval_prod_const, eval_prod g es]
      | tensor t => simp only [eval_prod_const, List.map_singleton, List.prod_singleton]
      | sum ts => simp only [eval_prod_const, List.map_singleton, List.prod_singleton]

theorem eval_ofTerms (ts : List Term) : (ofTerms ts).eval g = Combination.eval (eval g) ts := by
  match ts with
  | [] => exact eval_zero g
  | [(c, m)] => rw [ofTerms, eval_scaled, Combination.eval_cons, Combination.eval_nil, add_zero]
  | s :: t :: ts => exact eval_sum g _

theorem eval_collect (ts : List Term) : (collect ts).eval g = Combination.eval (eval g) ts := by
  rw [collect, eval_ofTerms, Combination.eval_collect]

/-! ## Decompositions -/

theorem eval_splitCoefficient (e : Expr) :
    e.splitCoefficient.1 • e.splitCoefficient.2.eval g = e.eval g := by
  unfold splitCoefficient
  split
  · rw [eval_one, eval_const]
  · rw [eval_ofFactors, eval_prod_const]
  · rw [one_smul]

theorem eval_eq_zero_of_isZero {e : Expr} (h : e.isZero = true) : e.eval g = 0 := by
  cases e with
  | const r =>
      obtain rfl : r = 0 := by simpa [isZero] using h
      exact eval_zero g
  | _ => simp [isZero] at h

/-- A tree is worth the weighted sum of its terms. -/
theorem eval_terms (e : Expr) : Combination.eval (eval g) e.terms = e.eval g := by
  unfold terms
  split
  · rw [eval_sum]
  · split
    · next h => rw [eval_eq_zero_of_isZero g h, Combination.eval_nil]
    · rw [Combination.eval_cons, Combination.eval_nil, add_zero, eval_splitCoefficient]

/-- A tree is worth the product of its factors. -/
theorem eval_factors (e : Expr) : (e.factors.map (eval g)).prod = e.eval g := by
  unfold factors
  split
  · rw [eval_prod]
  · split
    · next h =>
        cases e with
        | const r =>
            obtain rfl : r = 1 := by simpa [isOne] using h
            exact (eval_one g).symm
        | _ => simp [isOne] at h
    · rw [List.map_singleton, List.prod_singleton]

/-! ## Operations on lists -/

/-- The weighted sum of trees is the weighted sum of their values. -/
theorem eval_weightedSum (ts : List Term) :
    (weightedSum ts).eval g = Combination.eval (eval g) ts := by
  rw [weightedSum, eval_collect]
  induction ts with
  | nil => rfl
  | cons t ts ih =>
      have ht : Combination.eval (eval g) (weightedTerms t) = t.1 • t.2.eval g := by
        rw [← eval_terms g t.2]
        exact Combination.eval_scale (eval g) t.1 t.2.terms
      rw [List.flatMap_cons, Combination.eval_append, ih, ht, Combination.eval_cons]

end Expr

theorem Word.eval_monomial (g : Tensor → A) (w : Word) : w.monomial.eval g = w.eval g := by
  rw [monomial, Expr.eval_ofFactors, List.map_map]
  rfl

/-- The tree of a sum of words has the value of the sum. -/
theorem WordSum.eval_toExpr (g : Tensor → A) (p : WordSum) : p.toExpr.eval g = p.eval g := by
  rw [toExpr, Expr.eval_ofTerms, Combination.eval_map]
  exact Combination.eval_congr fun t _ => Word.eval_monomial g t.2

namespace Expr

theorem eval_ofTensor (g : Tensor → A) (t : Tensor) :
    (ofTensor t).eval g = WordSum.eval g t.canonicalWords :=
  WordSum.eval_toExpr g t.canonicalWords

/-- The product of trees is the product of their values. -/
theorem eval_product {g : Tensor → A} (hg : CNumbersCommute g) (es : List Expr) :
    (product es).eval g = (es.map (eval g)).prod := by
  have hleaf : (fun t => WordSum.eval g [(1, [t])]) = g := by
    funext t
    rw [WordSum.eval_cons, WordSum.eval_nil, Word.eval_cons, Word.eval_nil, mul_one, one_smul,
      add_zero]
  rw [product, WordSum.eval_toExpr, eval_expandFactors hg, hleaf, evalFactors_eq]

end Expr

end SecondQuant
