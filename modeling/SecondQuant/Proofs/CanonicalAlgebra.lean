import SecondQuant.Antisymmetry
import SecondQuant.Delta
import SecondQuant.Dummy
import SecondQuant.Expr.Algebra
import SecondQuant.Error
import SecondQuant.Proofs.CanonicalTree

/-!
# Operations on canonical trees

Sums and products of canonical trees are canonical, although they never look at the index lists of
a tensor; the operations that do replace tensors bring them into canonical form themselves.  So
every operation leads from canonical trees to canonical trees.

* `Expr.isCanonical_weightedSum`, `Expr.isCanonical_product` — the two operations that all others
  are made of.
* `Expr.isCanonical_adjoint`, `Expr.isCanonical_rename`, `Expr.isCanonical_expandAntisymmetric` —
  the operations that replace tensors.
* `Expr.isCanonical_reduceDeltas`, `Expr.isCanonical_renumberDummies` — the reductions of dummies.
-/

namespace SecondQuant

namespace Expr

/-! ## Weighted sums -/

/-- Collecting monomials is collecting words. -/
theorem collect_monomials (p : WordSum) :
    collect (p.map fun t => (t.1, t.2.monomial)) =
      WordSum.toExpr (Combination.collect Word.cmp p) :=
  congrArg ofTerms (Combination.collect_map Word.cmp_monomial p)

/-- Collecting monomials gives a canonical tree. -/
theorem isCanonical_collect {ts : List Term} (h : ∀ t ∈ ts, t.2.IsMonomial) :
    (collect ts).IsCanonical := by
  obtain ⟨p, hp, rfl⟩ := exists_words h
  rw [collect_monomials]
  exact isCanonical_toExpr (WordSum.built_collect hp)

/-- A weighted sum of canonical trees is canonical. -/
theorem isCanonical_weightedSum {ts : List Term} (h : ∀ t ∈ ts, t.2.IsCanonical) :
    (weightedSum ts).IsCanonical := by
  apply isCanonical_collect
  intro s hs
  obtain ⟨t, ht, hs⟩ := List.mem_flatMap.mp hs
  obtain ⟨r, hr, rfl⟩ := List.mem_map.mp hs
  exact isMonomial_of_mem_terms (t := r) (h t ht) hr

theorem isCanonical_total {es : List Expr} (h : ∀ e ∈ es, e.IsCanonical) :
    (total es).IsCanonical :=
  isCanonical_weightedSum (List.forall_mem_map.mpr h)

theorem isCanonical_add {d e : Expr} (hd : d.IsCanonical) (he : e.IsCanonical) :
    (d + e).IsCanonical :=
  isCanonical_total (List.forall_mem_cons.mpr ⟨hd, List.forall_mem_singleton.mpr he⟩)

theorem isCanonical_sub {d e : Expr} (hd : d.IsCanonical) (he : e.IsCanonical) :
    (d - e).IsCanonical :=
  isCanonical_weightedSum (List.forall_mem_cons.mpr ⟨hd, List.forall_mem_singleton.mpr he⟩)

theorem isCanonical_smul (c : ℚ) {e : Expr} (he : e.IsCanonical) : (c • e).IsCanonical :=
  isCanonical_weightedSum (List.forall_mem_singleton.mpr he)

/-! ## Products -/

theorem isCanonical_of_mem_factorLeaves_of_forall {es : List Expr} (h : ∀ e ∈ es, e.IsCanonical) :
    ∀ t ∈ factorLeaves es, t.IsCanonical := by
  induction es with
  | nil => exact List.forall_mem_nil _
  | cons e es ih =>
      obtain ⟨he, hes⟩ := List.forall_mem_cons.mp h
      exact List.forall_mem_append.mpr ⟨isCanonical_of_mem_leaves he, ih hes⟩

/-- A product of canonical trees is canonical. -/
theorem isCanonical_product {es : List Expr} (h : ∀ e ∈ es, e.IsCanonical) :
    (product es).IsCanonical := by
  refine isCanonical_toExpr (built_expandFactors es ?_)
  intro t ht s hs
  obtain rfl := List.mem_singleton.mp hs
  exact List.forall_mem_singleton.mpr (isCanonical_of_mem_factorLeaves_of_forall h t ht)

theorem isCanonical_mul {d e : Expr} (hd : d.IsCanonical) (he : e.IsCanonical) :
    (d * e).IsCanonical :=
  isCanonical_product (List.forall_mem_cons.mpr ⟨hd, List.forall_mem_singleton.mpr he⟩)

/-- A chain of canonical operators is canonical. -/
theorem isCanonical_chain {es : List Expr} (h : ∀ e ∈ es, e.IsCanonical) {x : Expr}
    (hx : chain es = .ok x) : x.IsCanonical := by
  unfold chain at hx
  split at hx
  · cases hx
  · split at hx
    · cases hx
    · cases hx
      exact isCanonical_product h

/-! ## Single tensors -/

theorem isCanonical_ofTensor (t : Tensor) : (ofTensor t).IsCanonical :=
  isCanonical_toExpr t.isCanonical_canonicalWords

theorem isCanonical_plain {t : Tensor} (h : t.symmetry = .plain) : (tensor t).IsCanonical :=
  .tensor (Tensor.isCanonical_of_plain h)

theorem isCanonical_creation (s : Statistics) (i : Index) : (creation s i).IsCanonical :=
  isCanonical_plain rfl

theorem isCanonical_annihilation (s : Statistics) (i : Index) : (annihilation s i).IsCanonical :=
  isCanonical_plain rfl

/-! ## Replacing tensors -/

/-- Replacing tensors by canonical words gives a canonical tree. -/
theorem isCanonical_toExpr_expand {leaf : Tensor → WordSum}
    (h : ∀ t, ∀ s ∈ leaf t, ∀ x ∈ s.2, x.IsCanonical) (e : Expr) :
    (e.expand leaf).toExpr.IsCanonical :=
  isCanonical_toExpr (isCanonical_expand fun t _ => h t)

/-- The adjoint of any tree is canonical. -/
theorem isCanonical_adjoint (e : Expr) : e.adjoint.IsCanonical := by
  have hletters : (e.expand fun t => t.adjoint.canonicalWords).IsCanonical :=
    isCanonical_expand fun _ _ _ hs => Tensor.isCanonical_of_mem_canonicalWords hs
  exact isCanonical_toExpr (WordSum.built_reverse fun t ht => (hletters.2 t ht).2)

/-- Renaming the indices of any tree gives a canonical one. -/
theorem isCanonical_rename (σ : Renaming) (e : Expr) : (e.rename σ).IsCanonical :=
  isCanonical_toExpr_expand (fun _ _ hs => Tensor.isCanonical_of_mem_canonicalWords hs) e

theorem isCanonical_of_mem_expansionWords {t : Tensor} {s : ℚ × Word}
    (hs : s ∈ t.expansionWords) : ∀ x ∈ s.2, x.IsCanonical := by
  unfold Tensor.expansionWords at hs
  split at hs
  · obtain ⟨is, _, rfl⟩ := List.mem_map.mp hs
    exact List.forall_mem_singleton.mpr (Tensor.isCanonical_of_plain rfl)
  · exact Tensor.isCanonical_of_mem_canonicalWords hs

/-- Expanding the antisymmetric tensors of any tree gives a canonical one. -/
theorem isCanonical_expandAntisymmetric (e : Expr) : e.expandAntisymmetric.IsCanonical :=
  isCanonical_toExpr_expand (fun _ _ hs => isCanonical_of_mem_expansionWords hs) e

/-! ## Reductions -/

/-- A term stays canonical however many of its deltas are eliminated. -/
theorem isCanonical_eliminate (fuel : Nat) {m : Expr} (h : m.IsCanonical) :
    (eliminate fuel m).IsCanonical := by
  induction fuel generalizing m with
  | zero => exact h
  | succ fuel ih =>
      rw [eliminate]
      split
      · exact h
      · exact ih (isCanonical_rename _ _)

theorem isCanonical_reduceDeltas {e : Expr} (h : e.IsCanonical) : e.reduceDeltas.IsCanonical := by
  refine isCanonical_weightedSum (List.forall_mem_map.mpr ?_)
  intro t ht
  exact isCanonical_eliminate _ (isMonomial_of_mem_terms h ht).isCanonical

/-- Renumbering the dummies of any tree gives a canonical one. -/
theorem isCanonical_renumberDummies (e : Expr) : e.renumberDummies.IsCanonical :=
  isCanonical_weightedSum (List.forall_mem_map.mpr fun _ _ => isCanonical_rename _ _)

end Expr

end SecondQuant
