import SecondQuant.Proofs.AdjointLaws

/-!
# The words of an adjoint

The adjoint of a word is the word of the conjugate letters, read backwards and brought into normal
form.  No two canonical words have the same adjoint, and the conjugate of a canonical tensor is
canonical without a sign, so the adjoint of an expression has one term for each term of the
expression, with the same coefficient.

* `Word.adjoint`, `Word.adjoint_adjoint` — the adjoint of a word, an involution on canonical words.
* `Word.chain_adjoint` — its chain: the adjoint operators in reverse order.
* `Expr.words_adjoint_perm` — **the words of an adjoint are the adjoints of the words**.
-/

namespace SecondQuant

/-! ## Conjugate letters -/

namespace Tensor

theorem sorted_adjoint (t : Tensor) : t.adjoint.sorted = t.sorted.adjoint := by
  obtain ⟨name, upper, lower, symmetry, ladder⟩ := t
  cases ladder <;> rfl

theorem sign_adjoint (t : Tensor) : t.adjoint.sign = t.sign := by
  obtain ⟨name, upper, lower, symmetry, ladder⟩ := t
  cases ladder with
  | none => exact Sign.mul_comm _ _
  | some l => rfl

/-- Conjugating a tensor exchanges its lists or keeps them, and so does not change its sign. -/
theorem canonical?_adjoint (t : Tensor) :
    t.adjoint.canonical? = t.canonical?.map fun x => (x.1, x.2.adjoint) := by
  have hsymmetry := t.symmetry_adjoint
  cases hs : t.symmetry with
  | plain => rw [canonical?_of_plain hs, canonical?_of_plain (hsymmetry.trans hs)]; rfl
  | symmetric =>
      rw [canonical?_of_symmetric hs, canonical?_of_symmetric (hsymmetry.trans hs), sorted_adjoint]
      rfl
  | antisymmetric =>
      by_cases hd : t.Distinct
      · rw [canonical?_of_distinct hs hd,
          canonical?_of_distinct (hsymmetry.trans hs) (distinct_adjoint.mpr hd), sorted_adjoint,
          sign_adjoint]
        rfl
      · rw [canonical?_of_not_distinct hs hd,
          canonical?_of_not_distinct (hsymmetry.trans hs) (hd ∘ distinct_adjoint.mp)]
        rfl

theorem IsCanonical.adjoint {t : Tensor} (h : t.IsCanonical) : t.adjoint.IsCanonical := by
  rw [IsCanonical, canonical?_adjoint, h]
  rfl

end Tensor

/-- The operator that undoes one of a chain. -/
def ChainOperator.adjoint (o : ChainOperator) : ChainOperator :=
  ⟨o.source.adjoint, o.ladder.adjoint, o.index⟩

/-- The conjugate of an operator is read as the adjoint operator, and is as well formed. -/
theorem ChainOperator.read?_adjoint (t : Tensor) :
    read? t.adjoint = (read? t).map ChainOperator.adjoint := by
  obtain ⟨name, upper, lower, symmetry, ladder⟩ := t
  cases ladder with
  | none => rfl
  | some l =>
      simp only [read?, Tensor.adjoint, Tensor.elementary?]
      split <;> simp_all [ChainOperator.adjoint, Tensor.adjoint]

/-- The conjugates of operators, in reverse order, are read as the adjoint operators, in reverse
order. -/
theorem ChainOperator.filterMap_read?_adjoint (ts : List Tensor) :
    (ts.map Tensor.adjoint).reverse.filterMap read? =
      ((ts.filterMap read?).map ChainOperator.adjoint).reverse := by
  rw [List.filterMap_reverse, List.filterMap_map, List.map_filterMap]
  exact congrArg List.reverse (List.filterMap_congr fun t _ => read?_adjoint t)

/-! ## Conjugate words -/

namespace Word

open OperatorAlgebra (gen conjugation)

/-- The conjugate of a word is the word of the conjugate letters, read backwards. -/
theorem unop_conjugation (w : Word) :
    (conjugation (w.eval gen)).unop = eval gen (w.map Tensor.adjoint).reverse := by
  rw [map_eval, eval_reverse, eval, eval, List.map_map]
  simp only [OperatorAlgebra.conjugation_gen]
  rfl

/-- The adjoint of a word, in normal form. -/
def adjoint (w : Word) : Word :=
  normal (w.map Tensor.adjoint).reverse

variable {w : Word}

theorem filter_reverse_map_adjoint (p : Bool → Bool) (w : Word) :
    ((w.map Tensor.adjoint).reverse.filter fun t => p t.isOperator) =
      ((w.filter fun t => p t.isOperator).map Tensor.adjoint).reverse := by
  rw [List.filter_reverse, List.filter_map]
  simp only [Function.comp_def, Tensor.isOperator_adjoint]

theorem operators_adjoint (w : Word) :
    w.adjoint.operators = (w.operators.map Tensor.adjoint).reverse :=
  (operators_normal _).trans (filter_reverse_map_adjoint id w)

theorem cNumbers_adjoint_perm (w : Word) :
    w.adjoint.cNumbers.Perm (w.cNumbers.map Tensor.adjoint) := by
  have hreverse := filter_reverse_map_adjoint not w
  refine ((normal_perm _).filter _).trans ?_
  rw [hreverse]
  exact List.reverse_perm _

theorem isCanonical_adjoint (hw : w.IsCanonical) : w.adjoint.IsCanonical := by
  apply built_normal
  simp only [List.mem_reverse]
  exact List.forall_mem_map.mpr fun t ht => (hw.2 t ht).adjoint

/-- Conjugating twice restores a canonical word. -/
theorem adjoint_adjoint (hw : w.IsCanonical) : w.adjoint.adjoint = w := by
  have htwice : ∀ l : List Tensor, (l.map Tensor.adjoint).map Tensor.adjoint = l := by
    intro l
    simp [Function.comp_def]
  rw [← hw.1]
  conv_lhs => rw [hw.1, adjoint]
  apply normal_congr
  · rw [show cNumbers (w.adjoint.map Tensor.adjoint).reverse =
      (w.adjoint.cNumbers.map Tensor.adjoint).reverse from filter_reverse_map_adjoint not _]
    have hperm := (cNumbers_adjoint_perm w).map Tensor.adjoint
    rw [htwice] at hperm
    exact (List.reverse_perm _).trans hperm
  · rw [show operators (w.adjoint.map Tensor.adjoint).reverse =
      (w.adjoint.operators.map Tensor.adjoint).reverse from filter_reverse_map_adjoint id _,
      operators_adjoint, List.map_reverse, List.reverse_reverse, htwice]

/-- The chain of the adjoint: the adjoint operators in reverse order. -/
theorem chain_adjoint (w : Word) :
    w.adjoint.chain = (w.chain.map ChainOperator.adjoint).reverse := by
  rw [chain, operators_adjoint, ChainOperator.filterMap_read?_adjoint, chain]

theorem wellFormed_adjoint : w.adjoint.WellFormed ↔ w.WellFormed := by
  simp only [WellFormed, operators_adjoint, List.mem_reverse, List.forall_mem_map,
    ChainOperator.read?_adjoint, Option.isSome_map]

end Word

/-! ## The words of the adjoint -/

/-- The adjoints of canonical words, each with the coefficient of the word. -/
def WordSum.adjoints (p : WordSum) : WordSum :=
  p.map fun t => (t.1, t.2.adjoint)

namespace WordSum

variable {p : WordSum}

/-- Distinct canonical words have distinct adjoints. -/
theorem nodup_adjoints (hp : p.IsCanonical) : (p.adjoints.map Prod.snd).Nodup := by
  rw [adjoints, List.map_map]
  refine List.Nodup.of_map Word.adjoint ?_
  rw [List.map_map]
  have hid : ∀ t ∈ p, (Word.adjoint ∘ Prod.snd ∘ fun t : ℚ × Word => (t.1, t.2.adjoint)) t = t.2 :=
    fun t ht => Word.adjoint_adjoint (hp.2 t ht)
  rw [List.map_congr_left hid]
  exact hp.1.nodup

theorem isCanonical_collect_adjoints (hp : p.IsCanonical) :
    IsCanonical (Combination.collect Word.cmp p.adjoints) :=
  built_collect <| List.forall_mem_map.mpr fun t ht => Word.isCanonical_adjoint (hp.2 t ht)

end WordSum

namespace Expr

open OperatorAlgebra (gen)

/-- The words of an adjoint are the adjoints of the words, collected. -/
theorem words_adjoint (e : Expr) :
    e.adjoint.words = Combination.collect Word.cmp e.words.adjoints := by
  have hp : e.words.IsCanonical := e.isCanonical_canonicalWords_expand
  refine WordSum.eq_of_eval_gen (isCanonical_canonicalWords_expand _)
    (WordSum.isCanonical_collect_adjoints hp) ?_
  have hconj : e.adjoint.denote =
      Combination.eval (fun w => (OperatorAlgebra.conjugation (w.eval gen)).unop) e.words := by
    rw [denote_adjoint_eq, denote_eq_eval_words e]
    exact Combination.map_eval ((MulOpposite.opLinearEquiv ℚ).symm.toLinearMap ∘ₗ
      OperatorAlgebra.conjugation.toLinearMap) _ _
  rw [← denote_eq_eval_words, hconj, WordSum.eval, Combination.eval_collect, WordSum.adjoints,
    Combination.eval_map]
  refine Combination.eval_congr fun t _ => ?_
  rw [Word.unop_conjugation, Word.adjoint, Word.eval_normal OperatorAlgebra.lawful_gen.commute]

/-- **The words of an adjoint** are the adjoints of the words, with the same coefficients. -/
theorem words_adjoint_perm (e : Expr) : e.adjoint.words.Perm e.words.adjoints := by
  have hp : e.words.IsCanonical := e.isCanonical_canonicalWords_expand
  rw [words_adjoint]
  exact Combination.collect_perm (WordSum.nodup_adjoints hp)
    (List.forall_mem_map.mpr fun t ht => hp.1.2 t ht)

end Expr

end SecondQuant
