import SecondQuant.Proofs.AdjointWords
import SecondQuant.Proofs.Failures
import SecondQuant.Proofs.Readings

/-!
# Screening and the adjoint

What one operator makes its adjoint takes away, from either side of the guard that forbids to remove
a quantum that is not there.  So a run of a chain, read backwards, is a run of the adjoint chain,
and an expression reaches a rank from the reference exactly when its adjoint brings that rank back.

* `Leads.append_iff` — a run of two chains passes through an occupation between them.
* `leads_adjoint_iff`, `mem_reach_adjoint_iff` — a run of the adjoint chain is a run backwards.
* `Expr.any_terms_adjoint` — a question about the operators of the terms, asked of the adjoint.
* `Expr.screening_adjoint` — **raising and lowering are dual**.
-/

namespace SecondQuant

/-! ## Runs backwards -/

theorem ChainOperator.quanta_adjoint (o : ChainOperator) : o.adjoint.quanta = o.quanta := rfl

/-- A run of two chains passes through an occupation between them. -/
theorem Leads.append_iff {os ps : List ChainOperator} {start final : Occupation} :
    Leads (os ++ ps) start final ↔ ∃ mid, Leads ps start mid ∧ Leads os mid final := by
  induction os generalizing final with
  | nil => simp [Leads]
  | cons o os ih =>
      simp only [List.cons_append, Leads, ih]
      constructor
      · rintro ⟨last, ⟨mid, hps, hos⟩, hact⟩
        exact ⟨mid, hps, last, hos, hact⟩
      · rintro ⟨mid, hps, last, hos, hact⟩
        exact ⟨last, ⟨mid, hps, hos⟩, hact⟩

/-- A run of the adjoint chain is a run backwards. -/
theorem leads_adjoint_iff {os : List ChainOperator} {start final : Occupation} :
    Leads (os.map ChainOperator.adjoint).reverse start final ↔ Leads os final start := by
  -- The operator that acts last acts first in the adjoint chain, on the kind it acted on before.
  induction os generalizing start with
  | nil => exact eq_comm
  | cons o os ih =>
      have hstep : ∀ mid, Leads [o.adjoint] start mid ↔
          ∃ q ∈ o.quanta, act o.ladder.action q mid = some start := by
        intro mid
        simp only [Leads, exists_eq_left, ChainOperator.quanta_adjoint]
        exact exists_congr fun q => and_congr_right fun _ => act_adjoint_iff
      rw [List.map_cons, List.reverse_cons, Leads.append_iff, Leads]
      exact exists_congr fun mid => by rw [hstep, ih, and_comm]

/-- The occupations that are reached are those the chain leads to, if all operators are well
formed. -/
theorem mem_reach_iff_forall {ts : List Tensor} {start final : Occupation} :
    final ∈ reach ts start ↔ (∀ t ∈ ts, (ChainOperator.read? t).isSome) ∧
      Leads (ts.filterMap ChainOperator.read?) start final := by
  simp only [mem_reach_iff, mapM_eq_ok_iff, ChainOperator.ofTensor_eq_ok_iff,
    forall₂_eq_some_iff, and_assoc, exists_and_left, exists_eq_left]

/-- The conjugate operators, in reverse order, lead back. -/
theorem mem_reach_adjoint_iff {ts : List Tensor} {start final : Occupation} :
    final ∈ reach (ts.map Tensor.adjoint).reverse start ↔ start ∈ reach ts final := by
  simp only [mem_reach_iff_forall, ChainOperator.filterMap_read?_adjoint, leads_adjoint_iff,
    List.mem_reverse, List.forall_mem_map, ChainOperator.read?_adjoint, Option.isSome_map]

theorem connects_adjoint (ts : List Tensor) (start final : Occupation) :
    connects (ts.map Tensor.adjoint).reverse start final = connects ts final start := by
  rw [Bool.eq_iff_iff, connects_iff, connects_iff, mem_reach_adjoint_iff]

/-! ## Expressions -/

namespace Expr

variable {e : Expr}

theorem any_terms (he : e.IsCanonical) (p : List Tensor → Bool) :
    (e.terms.any fun t => p t.2.operators) = e.words.any fun t => p t.2.operators := by
  rw [terms_eq_words he, List.any_map]
  simp only [Function.comp_def, Word.operators_monomial]

/-- A question about the operators of the terms of an adjoint is one about those of the expression,
conjugated and in reverse order. -/
theorem any_terms_adjoint (he : e.IsCanonical) (p : List Tensor → Bool) :
    (e.adjoint.terms.any fun t => p t.2.operators) =
      e.terms.any fun t => p (t.2.operators.map Tensor.adjoint).reverse := by
  rw [any_terms (isCanonical_adjoint e), e.words_adjoint_perm.any_eq, WordSum.adjoints,
    List.any_map, any_terms he fun ts => p (ts.map Tensor.adjoint).reverse]
  simp only [Function.comp_def, Word.operators_adjoint]

theorem raisesTo_adjoint (he : e.IsCanonical) (k : Nat) :
    e.adjoint.raisesTo k = e.lowersFrom k := by
  rw [raisesTo, any_terms_adjoint he fun ts => connects ts .reference (.determinant k)]
  simp only [connects_adjoint, lowersFrom]

theorem lowersFrom_adjoint (he : e.IsCanonical) (k : Nat) :
    e.adjoint.lowersFrom k = e.raisesTo k := by
  rw [lowersFrom, any_terms_adjoint he fun ts => connects ts (.determinant k) .reference]
  simp only [connects_adjoint, raisesTo]

/-- **Raising and lowering are dual.**  A canonical expression brings the determinants of a rank
back to the reference exactly when its adjoint makes one of them out of the reference, and the other
way round; the same holds of all ranks up to a bound. -/
theorem screening_adjoint (he : e.IsCanonical) (k : Nat) :
    e.lowersFrom k = e.adjoint.raisesTo k ∧ e.raisesTo k = e.adjoint.lowersFrom k ∧
      e.lowersFromUpTo k = e.adjoint.raisesUpTo k ∧
      e.raisesUpTo k = e.adjoint.lowersFromUpTo k := by
  refine ⟨(raisesTo_adjoint he k).symm, (lowersFrom_adjoint he k).symm, ?_, ?_⟩
  · rw [Bool.eq_iff_iff, lowersFromUpTo_iff, raisesUpTo_iff]
    simp only [raisesTo_adjoint he]
  · rw [Bool.eq_iff_iff, lowersFromUpTo_iff, raisesUpTo_iff]
    simp only [lowersFrom_adjoint he]

/-- A one-body term over general indices beside a double excitation. -/
def scatteringAndDoubles : Expr :=
  .sum [(1, .prod [.tensor (.cNumber "f" [.dummy .general 1] [.dummy .general 2] .plain),
      .creation .fermion (.dummy .general 1), .annihilation .fermion (.dummy .general 2)]),
    (1 / 4, .prod [.tensor (.cNumber "t" [.dummy .virtual 1, .dummy .virtual 2]
        [.dummy .occupied 1, .dummy .occupied 2] .antisymmetric),
      .creation .fermion (.dummy .virtual 1), .creation .fermion (.dummy .virtual 2),
      .annihilation .fermion (.dummy .occupied 2), .annihilation .fermion (.dummy .occupied 1)])]

/-- The double excitation makes rank 2 and does not undo it, so its adjoint undoes it and does not
make it; scattering does both up to rank 1, and so does its adjoint. -/
theorem screening_adjoint_scatteringAndDoubles :
    scatteringAndDoubles.IsCanonical ∧
      scatteringAndDoubles.adjoint.lowersFrom 2 = true ∧
      scatteringAndDoubles.adjoint.raisesTo 2 = false ∧
      scatteringAndDoubles.adjoint.raisesUpTo 2 = true := by
  have hcan : scatteringAndDoubles.IsCanonical := canonical_eq_self_iff.mp (by decide +kernel)
  obtain ⟨hlowers, hraises, hlowersUpTo, -⟩ := screening_adjoint hcan 2
  exact ⟨hcan, hraises ▸ (by decide +kernel), hlowers ▸ (by decide +kernel),
    hlowersUpTo ▸ (by decide +kernel)⟩

end Expr

end SecondQuant
