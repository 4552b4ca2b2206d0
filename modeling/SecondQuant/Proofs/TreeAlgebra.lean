import Mathlib.Algebra.BigOperators.Group.List.Basic
import SecondQuant.Proofs.Linearity

/-!
# The algebra of canonical trees

Sums, products and multiples of canonical trees obey the laws of an associative ℚ-algebra, and both
sides of a law are one and the same tree.  For every law the two sides are canonical and denote the
same element of the algebra of tensors, where the law holds.

* `Expr.commute_eval` — what commutes with the tensors of a tree commutes with its value.
* `Expr.AlgebraLaws` — the laws, for the trees with a property.
* `Expr.algebraLaws_isCanonical` — **canonical trees form an associative ℚ-algebra**.
-/

namespace SecondQuant

namespace Expr

/-! ## What the operations denote -/

@[simp] theorem denote_zero : (0 : Expr).denote = 0 :=
  eval_zero OperatorAlgebra.gen

@[simp] theorem denote_one : (1 : Expr).denote = 1 :=
  eval_one OperatorAlgebra.gen

theorem denote_const (r : ℚ) : (const r).denote = r • 1 :=
  eval_const OperatorAlgebra.gen r

theorem denote_sub (d e : Expr) : (d - e).denote = d.denote - e.denote := by
  have h : (d - e).denote = Combination.eval denote [(1, d), (-1, e)] :=
    denote_weightedSum [(1, d), (-1, e)]
  simp [h, sub_eq_add_neg]

theorem denote_neg (e : Expr) : (-e).denote = -e.denote :=
  (denote_smul (-1) e).trans (neg_one_smul ℚ e.denote)

theorem denote_mul (d e : Expr) : (d * e).denote = d.denote * e.denote := by
  have h : (d * e).denote = ([d, e].map denote).prod := denote_product [d, e]
  simp [h]

theorem denote_total (es : List Expr) : (total es).denote = (es.map denote).sum := by
  rw [total, denote_weightedSum]
  induction es with
  | nil => rfl
  | cons e es ih => rw [List.map_cons, Combination.eval_cons, ih, one_smul, List.map_cons,
      List.sum_cons]

/-! ## Commuting trees -/

section Commute

variable {A : Type} [Ring A] [Algebra ℚ A] {g : Tensor → A} {x : A}

mutual

/-- What commutes with the values of all tensors of a tree commutes with the value of the tree. -/
theorem commute_eval : ∀ {e : Expr}, (∀ t ∈ e.leaves, Commute x (g t)) → Commute x (e.eval g)
  | const r, _ => (Algebra.commutes r x).symm
  | tensor t, h => h t (List.mem_singleton.mpr rfl)
  | sum _, h => commute_evalTerms h
  | prod _, h => commute_evalFactors h

theorem commute_evalTerms : ∀ {ts : List Term}, (∀ t ∈ termLeaves ts, Commute x (g t)) →
    Commute x (evalTerms g ts)
  | [], _ => Commute.zero_right x
  | (c, _) :: _, h =>
      have ⟨he, hts⟩ := List.forall_mem_append.mp h
      ((commute_eval he).smul_right c).add_right (commute_evalTerms hts)

theorem commute_evalFactors : ∀ {es : List Expr}, (∀ t ∈ factorLeaves es, Commute x (g t)) →
    Commute x (evalFactors g es)
  | [], _ => Commute.one_right x
  | _ :: _, h =>
      have ⟨he, hes⟩ := List.forall_mem_append.mp h
      (commute_eval he).mul_right (commute_evalFactors hes)

end

end Commute

/-- A tree without operators commutes with every tree. -/
theorem commute_denote {d : Expr} (hd : d.operators = []) (e : Expr) :
    Commute d.denote e.denote := by
  refine commute_eval fun t _ => (commute_eval fun s hs => ?_).symm
  have hop : s.isOperator = false := by
    simpa using List.filter_eq_nil_iff.mp hd s hs
  exact (OperatorAlgebra.lawful_gen.commute s t hop).symm

/-! ## The laws -/

/-- The laws of an associative ℚ-algebra for the trees with a property, as equations between trees;
also for sums and products of lists, which may be grouped in any way. -/
structure AlgebraLaws (P : Expr → Prop) : Prop where
  add_comm : ∀ a b, P a → P b → a + b = b + a
  add_assoc : ∀ a b c, P a → P b → P c → a + b + c = a + (b + c)
  zero_add : ∀ a, P a → 0 + a = a
  add_zero : ∀ a, P a → a + 0 = a
  sub_self : ∀ a, P a → a - a = 0
  sub_eq_add_neg : ∀ a b, P a → P b → a - b = a + -b
  mul_assoc : ∀ a b c, P a → P b → P c → a * b * c = a * (b * c)
  one_mul : ∀ a, P a → 1 * a = a
  mul_one : ∀ a, P a → a * 1 = a
  zero_mul : ∀ a, P a → 0 * a = 0
  mul_zero : ∀ a, P a → a * 0 = 0
  mul_add : ∀ a b c, P a → P b → P c → a * (b + c) = a * b + a * c
  add_mul : ∀ a b c, P a → P b → P c → (a + b) * c = a * c + b * c
  smul_eq_const_mul : ∀ (x : ℚ) a, P a → x • a = const x * a
  smul_eq_mul_const : ∀ (x : ℚ) a, P a → x • a = a * const x
  smul_smul : ∀ (x y : ℚ) a, P a → y • (x • a) = (x * y) • a
  add_smul : ∀ (x y : ℚ) a, P a → x • a + y • a = (x + y) • a
  smul_add : ∀ (x : ℚ) a b, P a → P b → x • (a + b) = x • a + x • b
  smul_mul_assoc : ∀ (x : ℚ) a b, P a → P b → x • a * b = x • (a * b)
  mul_smul_comm : ∀ (x : ℚ) a b, P a → P b → a * x • b = x • (a * b)
  mul_comm_of_operators : ∀ a b, P a → P b → a.operators = [] → a * b = b * a
  weightedSum_perm : ∀ ts us : List Term, (∀ t ∈ ts, P t.2) → ts.Perm us →
    weightedSum ts = weightedSum us
  product_singleton : ∀ a, P a → product [a] = a
  product_flatten : ∀ ess : List (List Expr), (∀ es ∈ ess, ∀ e ∈ es, P e) →
    product (ess.map product) = product ess.flatten
  total_singleton : ∀ a, P a → total [a] = a
  total_flatten : ∀ ess : List (List Expr), (∀ es ∈ ess, ∀ e ∈ es, P e) →
    total (ess.map total) = total ess.flatten
  weightedSum_flatMap : ∀ gs : List (ℚ × List Term), (∀ g ∈ gs, ∀ t ∈ g.2, P t.2) →
    weightedSum (gs.map fun g => (g.1, weightedSum g.2)) =
      weightedSum (gs.flatMap fun g => g.2.map fun t => (g.1 * t.1, t.2))

/-! ## Lists -/

/-- A product of products denotes the product of all their factors. -/
theorem denote_product_flatten (ess : List (List Expr)) :
    (product (ess.map product)).denote = (product ess.flatten).denote := by
  have hgroup : denote ∘ product = fun es => (es.map denote).prod := funext denote_product
  rw [denote_product, denote_product, List.map_map, hgroup, List.map_flatten, List.prod_flatten,
    List.map_map]
  rfl

/-- A sum of sums denotes the sum of all their members. -/
theorem denote_total_flatten (ess : List (List Expr)) :
    (total (ess.map total)).denote = (total ess.flatten).denote := by
  have hgroup : denote ∘ total = fun es => (es.map denote).sum := funext denote_total
  rw [denote_total, denote_total, List.map_map, hgroup, List.map_flatten, List.sum_flatten,
    List.map_map]
  rfl

/-- A weighted sum of weighted sums denotes the sum of all their terms, with the weights
multiplied. -/
theorem denote_weightedSum_flatMap (gs : List (ℚ × List Term)) :
    (weightedSum (gs.map fun g => (g.1, weightedSum g.2))).denote =
      (weightedSum (gs.flatMap fun g => Combination.scale g.1 g.2)).denote := by
  rw [denote_weightedSum, denote_weightedSum]
  induction gs with
  | nil => rfl
  | cons g gs ih =>
      rw [List.map_cons, Combination.eval_cons, ih, denote_weightedSum, List.flatMap_cons,
        Combination.eval_append, Combination.eval_scale]

theorem denote_weightedSum_perm {ts us : List Term} (h : ts.Perm us) :
    (weightedSum ts).denote = (weightedSum us).denote := by
  rw [denote_weightedSum, denote_weightedSum]
  exact (h.map _).sum_eq

/-! ## Canonical trees -/

theorem isCanonical_zero : (0 : Expr).IsCanonical := .const 0

theorem isCanonical_one : (1 : Expr).IsCanonical := .const 1

theorem isCanonical_neg {e : Expr} (h : e.IsCanonical) : (-e).IsCanonical :=
  isCanonical_smul (-1) h

theorem isCanonical_flatten {ess : List (List Expr)} (h : ∀ es ∈ ess, ∀ e ∈ es, e.IsCanonical) :
    ∀ e ∈ ess.flatten, e.IsCanonical := by
  intro e he
  obtain ⟨es, hes, he⟩ := List.mem_flatten.mp he
  exact h es hes e he

theorem isCanonical_groups {gs : List (ℚ × List Term)}
    (h : ∀ g ∈ gs, ∀ t ∈ g.2, t.2.IsCanonical) :
    ∀ t ∈ gs.flatMap (fun g => Combination.scale g.1 g.2), t.2.IsCanonical := by
  intro t ht
  obtain ⟨g, hg, ht⟩ := List.mem_flatMap.mp ht
  obtain ⟨s, hs, rfl⟩ := List.mem_map.mp ht
  exact h g hg s hs

/-- **Canonical trees form an associative ℚ-algebra.**  Addition is commutative and associative,
multiplication is associative and distributes over it on both sides, multiples are products with
constants, trees without operators commute with all others, and sums and products of lists may be
reordered and grouped as in an algebra; the two sides of every law are the same tree. -/
theorem algebraLaws_isCanonical : AlgebraLaws IsCanonical where
  add_comm a b ha hb := by
    refine eq_of_denote_eq (isCanonical_add ha hb) (isCanonical_add hb ha) ?_
    rw [denote_add, denote_add, add_comm]
  add_assoc a b c ha hb hc := by
    refine eq_of_denote_eq (isCanonical_add (isCanonical_add ha hb) hc)
      (isCanonical_add ha (isCanonical_add hb hc)) ?_
    rw [denote_add, denote_add, denote_add, denote_add, add_assoc]
  zero_add a ha := by
    refine eq_of_denote_eq (isCanonical_add isCanonical_zero ha) ha ?_
    rw [denote_add, denote_zero, zero_add]
  add_zero a ha := by
    refine eq_of_denote_eq (isCanonical_add ha isCanonical_zero) ha ?_
    rw [denote_add, denote_zero, add_zero]
  sub_self a ha := by
    refine eq_of_denote_eq (isCanonical_sub ha ha) isCanonical_zero ?_
    rw [denote_sub, denote_zero, sub_self]
  sub_eq_add_neg a b ha hb := by
    refine eq_of_denote_eq (isCanonical_sub ha hb) (isCanonical_add ha (isCanonical_neg hb)) ?_
    rw [denote_sub, denote_add, denote_neg, sub_eq_add_neg]
  mul_assoc a b c ha hb hc := by
    refine eq_of_denote_eq (isCanonical_mul (isCanonical_mul ha hb) hc)
      (isCanonical_mul ha (isCanonical_mul hb hc)) ?_
    rw [denote_mul, denote_mul, denote_mul, denote_mul, mul_assoc]
  one_mul a ha := by
    refine eq_of_denote_eq (isCanonical_mul isCanonical_one ha) ha ?_
    rw [denote_mul, denote_one, one_mul]
  mul_one a ha := by
    refine eq_of_denote_eq (isCanonical_mul ha isCanonical_one) ha ?_
    rw [denote_mul, denote_one, mul_one]
  zero_mul a ha := by
    refine eq_of_denote_eq (isCanonical_mul isCanonical_zero ha) isCanonical_zero ?_
    rw [denote_mul, denote_zero, zero_mul]
  mul_zero a ha := by
    refine eq_of_denote_eq (isCanonical_mul ha isCanonical_zero) isCanonical_zero ?_
    rw [denote_mul, denote_zero, mul_zero]
  mul_add a b c ha hb hc := by
    refine eq_of_denote_eq (isCanonical_mul ha (isCanonical_add hb hc))
      (isCanonical_add (isCanonical_mul ha hb) (isCanonical_mul ha hc)) ?_
    rw [denote_mul, denote_add, denote_add, denote_mul, denote_mul, mul_add]
  add_mul a b c ha hb hc := by
    refine eq_of_denote_eq (isCanonical_mul (isCanonical_add ha hb) hc)
      (isCanonical_add (isCanonical_mul ha hc) (isCanonical_mul hb hc)) ?_
    rw [denote_mul, denote_add, denote_add, denote_mul, denote_mul, add_mul]
  smul_eq_const_mul x a ha := by
    refine eq_of_denote_eq (isCanonical_smul x ha) (isCanonical_mul (.const x) ha) ?_
    rw [denote_smul, denote_mul, denote_const, smul_one_mul]
  smul_eq_mul_const x a ha := by
    refine eq_of_denote_eq (isCanonical_smul x ha) (isCanonical_mul ha (.const x)) ?_
    rw [denote_smul, denote_mul, denote_const, mul_smul_one]
  smul_smul x y a ha := by
    refine eq_of_denote_eq (isCanonical_smul y (isCanonical_smul x ha))
      (isCanonical_smul (x * y) ha) ?_
    rw [denote_smul, denote_smul, denote_smul, smul_smul, mul_comm]
  add_smul x y a ha := by
    refine eq_of_denote_eq (isCanonical_combination x y ha ha) (isCanonical_smul (x + y) ha) ?_
    rw [denote_add, denote_smul, denote_smul, denote_smul, add_smul]
  smul_add x a b ha hb := by
    refine eq_of_denote_eq (isCanonical_smul x (isCanonical_add ha hb))
      (isCanonical_combination x x ha hb) ?_
    rw [denote_smul, denote_add, denote_add, denote_smul, denote_smul, smul_add]
  smul_mul_assoc x a b ha hb := by
    refine eq_of_denote_eq (isCanonical_mul (isCanonical_smul x ha) hb)
      (isCanonical_smul x (isCanonical_mul ha hb)) ?_
    rw [denote_mul, denote_smul, denote_smul, denote_mul, smul_mul_assoc]
  mul_smul_comm x a b ha hb := by
    refine eq_of_denote_eq (isCanonical_mul ha (isCanonical_smul x hb))
      (isCanonical_smul x (isCanonical_mul ha hb)) ?_
    rw [denote_mul, denote_smul, denote_smul, denote_mul, mul_smul_comm]
  mul_comm_of_operators a b ha hb h := by
    refine eq_of_denote_eq (isCanonical_mul ha hb) (isCanonical_mul hb ha) ?_
    rw [denote_mul, denote_mul, commute_denote h b]
  weightedSum_perm ts us hts hperm :=
    eq_of_denote_eq (isCanonical_weightedSum hts)
      (isCanonical_weightedSum fun t ht => hts t (hperm.mem_iff.mpr ht))
      (denote_weightedSum_perm hperm)
  product_singleton a ha := by
    refine eq_of_denote_eq (isCanonical_product (List.forall_mem_singleton.mpr ha)) ha ?_
    rw [denote_product, List.map_singleton, List.prod_singleton]
  product_flatten ess h :=
    eq_of_denote_eq
      (isCanonical_product (List.forall_mem_map.mpr fun es hes => isCanonical_product (h es hes)))
      (isCanonical_product (isCanonical_flatten h)) (denote_product_flatten ess)
  total_singleton a ha := by
    refine eq_of_denote_eq (isCanonical_total (List.forall_mem_singleton.mpr ha)) ha ?_
    rw [denote_total, List.map_singleton, List.sum_singleton]
  total_flatten ess h :=
    eq_of_denote_eq
      (isCanonical_total (List.forall_mem_map.mpr fun es hes => isCanonical_total (h es hes)))
      (isCanonical_total (isCanonical_flatten h)) (denote_total_flatten ess)
  weightedSum_flatMap gs h :=
    eq_of_denote_eq
      (isCanonical_weightedSum
        (List.forall_mem_map.mpr fun g hg => isCanonical_weightedSum (h g hg)))
      (isCanonical_weightedSum (isCanonical_groups h)) (denote_weightedSum_flatMap gs)

end Expr

end SecondQuant
