import SecondQuant.Proofs.CanonicalAlgebra
import SecondQuant.Proofs.LinearExtension

/-!
# Taking trees apart and putting them together

A canonical tree is the weighted sum of its terms and the product of its factors, whether it is a
constant, a single tensor, a product with or without a coefficient, or a sum.  Lists of terms and
canonical trees correspond to one another: the terms of a tree ascend, no coefficient is 0 and no
monomial has a constant factor, and a list like that is the list of terms of its weighted sum.

* `Expr.AreTerms` — the lists of terms that canonical trees have.
* `Expr.isMonomial_iff_factors` — monomials are the canonical trees without a constant factor that
  are no sums.
* `Expr.weightedSum_monomials` — the weighted sum of a canonical sum of words is its tree.
* `Expr.weightedSum_terms`, `Expr.product_factors`, `Expr.terms_weightedSum` — the round trips.
* `Expr.decompositions_inverse` — **terms and factors are inverse to sums and products**.
-/

namespace SecondQuant

namespace Expr

variable {e f m : Expr} {ts : List Term}

/-! ## Lists of terms -/

/-- Whether monomials stand in ascending order with coefficients other than 0. -/
structure AreTerms (ts : List Term) : Prop where
  ne_zero : ∀ t ∈ ts, t.1 ≠ 0
  ascending : ts.Pairwise fun s t => s.2.cmp t.2 = .lt
  monomial : ∀ t ∈ ts, t.2.IsMonomial

/-- Lists of terms are canonical sums of words. -/
theorem areTerms_iff :
    AreTerms ts ↔ ∃ p : WordSum, p.IsCanonical ∧ ts = p.map fun t => (t.1, t.2.monomial) := by
  constructor
  · rintro ⟨h0, hasc, hm⟩
    obtain ⟨p, hp, rfl⟩ := exists_words hm
    refine ⟨p, ⟨⟨?_, fun t ht => h0 _ (List.mem_map_of_mem ht)⟩, hp⟩, rfl⟩
    exact (List.pairwise_map.mp hasc).imp fun {a b} h => by rwa [Word.cmp_monomial] at h
  · rintro ⟨p, hp, rfl⟩
    refine ⟨List.forall_mem_map.mpr hp.1.2, List.pairwise_map.mpr ?_, ?_⟩
    · exact hp.1.1.imp fun {a b} h => by rw [Word.cmp_monomial, h]
    · exact List.forall_mem_map.mpr fun t ht => isMonomial_monomial (hp.2 t ht)

/-- The terms of a canonical tree ascend, with coefficients other than 0. -/
theorem areTerms_terms (h : e.IsCanonical) : AreTerms e.terms := by
  obtain ⟨p, hp, rfl⟩ := isCanonical_iff.mp h
  exact areTerms_iff.mpr ⟨p, hp, WordSum.terms_toExpr hp⟩

/-! ## Monomials and their factors -/

/-- The factors of a product are its members; any other tree has no factor but itself. -/
theorem mem_factors (h : f ∈ e.factors) : (∃ es, e = prod es ∧ f ∈ es) ∨ f = e := by
  unfold factors at h
  split at h
  · exact .inl ⟨_, rfl, h⟩
  · split at h
    · cases h
    · exact .inr (List.mem_singleton.mp h)

/-- A constant other than 1 is its own factor. -/
theorem factors_const {r : ℚ} (h : r ≠ 1) : (const r).factors = [const r] := by
  have hone : ¬(const r).isOne = true := by simpa [isOne] using h
  exact if_neg hone

theorem const_notMem_factors (h : m.IsMonomial) (r : ℚ) : const r ∉ m.factors := by
  obtain ⟨w, -, rfl⟩ := isMonomial_iff.mp h
  rw [w.factors_monomial]
  simp

/-- Monomials are the canonical trees without a constant factor that are no sums; 1 is the one
without any factor. -/
theorem isMonomial_iff_factors :
    m.IsMonomial ↔ m.IsCanonical ∧ (∀ ts, m ≠ sum ts) ∧ ∀ r, const r ∉ m.factors := by
  constructor
  · intro h
    refine ⟨h.isCanonical, fun ts hts => ?_, const_notMem_factors h⟩
    subst hts
    cases h
  · rintro ⟨hcan, hsum, hconst⟩
    cases hcan with
    | const r =>
        by_cases hr : r = 1
        · exact hr ▸ .one
        · have hmem : const r ∈ (const r).factors := by
            rw [factors_const hr]
            exact List.mem_singleton.mpr rfl
          exact absurd hmem (hconst r)
    | tensor h => exact .tensor h
    | prod h two => exact .prod h two
    | @scaled c es _ _ _ _ => exact absurd List.mem_cons_self (hconst c)
    | sum _ _ _ _ => exact absurd rfl (hsum _)

theorem AreFactors.isCanonical {es : List Expr} (h : AreFactors es) (hf : f ∈ es) :
    f.IsCanonical := by
  obtain ⟨w, hw, rfl⟩ := areFactors_iff.mp h
  obtain ⟨t, ht, rfl⟩ := List.mem_map.mp hf
  exact .tensor (hw.2 t ht)

/-- The factors of a canonical tree are canonical. -/
theorem isCanonical_of_mem_factors (h : e.IsCanonical) (hf : f ∈ e.factors) : f.IsCanonical := by
  rcases mem_factors hf with ⟨es, rfl, hf⟩ | rfl
  · cases h with
    | prod hes _ => exact hes.isCanonical hf
    | scaled _ _ hes _ =>
        rcases List.mem_cons.mp hf with rfl | hf
        · exact .const _
        · exact hes.isCanonical hf
  · exact h

/-! ## Round trips -/

/-- The weighted sum of a canonical sum of words, written with monomials, is its tree. -/
theorem weightedSum_monomials {p : WordSum} (hp : p.IsCanonical) :
    weightedSum (p.map fun t => (t.1, t.2.monomial)) = p.toExpr := by
  have hterms : ∀ t : ℚ × Word,
      weightedTerms (t.1, t.2.monomial) = [(t.1, t.2.monomial)] := by
    intro t
    rw [weightedTerms, t.2.terms_monomial, List.map_singleton, mul_one]
  rw [weightedSum, List.flatMap_map, funext hterms, ← List.map_eq_flatMap, collect_monomials,
    Combination.collect_eq_self hp.1]

/-- A canonical tree is the weighted sum of its terms. -/
theorem weightedSum_terms (h : e.IsCanonical) : weightedSum e.terms = e := by
  obtain ⟨p, hp, rfl⟩ := isCanonical_iff.mp h
  rw [WordSum.terms_toExpr hp, weightedSum_monomials hp]

/-- A list of terms is the list of terms of its weighted sum. -/
theorem terms_weightedSum (h : AreTerms ts) : (weightedSum ts).terms = ts := by
  obtain ⟨p, hp, rfl⟩ := areTerms_iff.mp h
  rw [weightedSum_monomials hp, WordSum.terms_toExpr hp]

/-- A canonical tree is the product of its factors. -/
theorem product_factors (h : e.IsCanonical) : product e.factors = e := by
  refine eq_of_denote_eq (isCanonical_product fun _ => isCanonical_of_mem_factors h) h ?_
  rw [denote_product]
  exact eval_factors _ e

/-! ## The decompositions -/

/-- **Terms and factors are inverse to sums and products.**  A canonical tree is the weighted sum of
its terms and the product of its factors; its terms ascend, with coefficients other than 0, and each
list of such terms is the list of terms of its weighted sum.  The monomials of the terms are
canonical trees that have no constant factor and are no sums. -/
theorem decompositions_inverse :
    (∀ e : Expr, e.IsCanonical →
      weightedSum e.terms = e ∧ product e.factors = e ∧ AreTerms e.terms) ∧
    (∀ ts : List Term, AreTerms ts → (weightedSum ts).terms = ts) ∧
    ∀ m : Expr, m.IsMonomial ↔ m.IsCanonical ∧ (∀ ts, m ≠ sum ts) ∧ ∀ r, const r ∉ m.factors :=
  ⟨fun _ h => ⟨weightedSum_terms h, product_factors h, areTerms_terms h⟩,
    fun _ => terms_weightedSum, fun _ => isMonomial_iff_factors⟩

/-- A one-body operator with its coefficient tensor. -/
def oneBodyWord : Word :=
  [Tensor.cNumber "f" [.dummy .general 1] [.dummy .general 2] .plain,
    Tensor.elementary ⟨.fermion, .creation⟩ (.dummy .general 1),
    Tensor.elementary ⟨.fermion, .annihilation⟩ (.dummy .general 2)]

/-- A constant, three times a tensor, and minus two times a product. -/
def threeTerms : List Term :=
  [(1 / 2, one), (3, Word.monomial (oneBodyWord.take 1)), (-2, oneBodyWord.monomial)]

/-- The three terms, their sum and the second of them, a scaled tensor, come back from their round
trips. -/
theorem decompositions_inverse_threeTerms :
    (AreTerms threeTerms ∧ (weightedSum threeTerms).terms = threeTerms) ∧
    ((sum threeTerms).IsCanonical ∧ weightedSum (sum threeTerms).terms = sum threeTerms ∧
      product (sum threeTerms).factors = sum threeTerms ∧ AreTerms (sum threeTerms).terms) ∧
    (scaled 3 (Word.monomial (oneBodyWord.take 1))).factors =
      [const 3, Word.monomial (oneBodyWord.take 1)] ∧
    product [const 3, Word.monomial (oneBodyWord.take 1)] =
      scaled 3 (Word.monomial (oneBodyWord.take 1)) := by
  have hword : oneBodyWord.IsCanonical := ⟨by decide +kernel, by decide +kernel⟩
  have hletter : Word.IsCanonical (oneBodyWord.take 1) := ⟨by decide +kernel, by decide +kernel⟩
  have hterms : AreTerms threeTerms := by
    refine ⟨by decide +kernel, by decide +kernel, List.forall_mem_cons.mpr ⟨.one, ?_⟩⟩
    exact List.forall_mem_cons.mpr ⟨isMonomial_monomial hletter,
      List.forall_mem_singleton.mpr (isMonomial_monomial hword)⟩
  have hsum : (sum threeTerms).IsCanonical :=
    .sum (by decide) hterms.ascending hterms.ne_zero hterms.monomial
  have hscaled : (scaled 3 (Word.monomial (oneBodyWord.take 1))).IsCanonical :=
    isCanonical_scaled (by decide) hletter
  obtain ⟨hround, hback, -⟩ := decompositions_inverse
  exact ⟨⟨hterms, hback _ hterms⟩, ⟨hsum, hround _ hsum⟩, by decide +kernel,
    (hround _ hscaled).2.1⟩

end Expr

end SecondQuant
