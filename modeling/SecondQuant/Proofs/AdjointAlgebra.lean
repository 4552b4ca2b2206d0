import Mathlib.Algebra.Algebra.Opposite
import SecondQuant.Proofs.Substitution

/-!
# The adjoint as an anti-homomorphism

The adjoint conjugates every tensor and reads products backwards.  Conjugated tensors obey the
relations of the algebra, also when products are read backwards, so the adjoint of a tree is its
value in the opposite algebra.

* `Lawful.op`, `Lawful.conjugate` — assignments read backwards, and at conjugated tensors.
* `Expr.denote_adjoint` — what the adjoint of a tree denotes.
* `Expr.adjoint_rename` — the adjoint of a renamed tree.
-/

namespace SecondQuant

open OperatorAlgebra (gen)
open MulOpposite (op unop)

/-! ## Conjugated tensors -/

namespace Tensor

/-- Conjugating a tensor whose places are permuted is permuting the places of the conjugate. -/
theorem exists_adjoint_permuted (t : Tensor) (σ : Equiv.Perm (Fin t.upper.length))
    (τ : Equiv.Perm (Fin t.lower.length)) :
    ∃ σ' τ', (t.permuted σ τ).adjoint = t.adjoint.permuted σ' τ' ∧
      Equiv.Perm.sign σ' * Equiv.Perm.sign τ' = Equiv.Perm.sign σ * Equiv.Perm.sign τ := by
  obtain ⟨name, upper, lower, symmetry, ladder⟩ := t
  -- A c-number exchanges its index lists, an operator keeps them.
  cases ladder with
  | none => exact ⟨τ, σ, rfl, mul_comm _ _⟩
  | some l => exact ⟨σ, τ, rfl, rfl⟩

theorem symmetry_adjoint (t : Tensor) : t.adjoint.symmetry = t.symmetry := by
  unfold adjoint
  split <;> rfl

theorem distinct_adjoint {t : Tensor} : t.adjoint.Distinct ↔ t.Distinct := by
  unfold adjoint
  split
  · exact Iff.rfl
  · exact and_comm

theorem adjoint_rename (σ : Renaming) (t : Tensor) :
    (t.rename σ).adjoint = t.adjoint.rename σ := by
  obtain ⟨name, upper, lower, symmetry, ladder⟩ := t
  cases ladder <;> rfl

end Tensor

/-! ## Lawful assignments -/

section Lawful

variable {A : Type} [Ring A] [Algebra ℚ A] {g : Tensor → A}

/-- A lawful assignment is lawful for products read backwards. -/
theorem Lawful.op (hg : Lawful g) : Lawful fun t => op (g t) where
  commute s t h := (hg.commute s t h).op
  symmetric t σ τ h := congrArg MulOpposite.op (hg.symmetric t σ τ h)
  antisymmetric t σ τ h := congrArg MulOpposite.op (hg.antisymmetric t σ τ h)
  repeated t h hd := congrArg MulOpposite.op (hg.repeated t h hd)

/-- A lawful assignment is lawful at conjugated tensors. -/
theorem Lawful.conjugate (hg : Lawful g) : Lawful fun t => g t.adjoint where
  commute s t h := hg.commute s.adjoint t.adjoint (by rwa [Tensor.isOperator_adjoint])
  symmetric t σ τ h := by
    obtain ⟨σ', τ', hperm, _⟩ := t.exists_adjoint_permuted σ τ
    rw [hperm]
    exact hg.symmetric t.adjoint σ' τ' (t.symmetry_adjoint.trans h)
  antisymmetric t σ τ h := by
    obtain ⟨σ', τ', hperm, hsign⟩ := t.exists_adjoint_permuted σ τ
    rw [hperm, ← hsign]
    exact hg.antisymmetric t.adjoint σ' τ' (t.symmetry_adjoint.trans h)
  repeated t h hd :=
    hg.repeated t.adjoint (t.symmetry_adjoint.trans h) fun hd' =>
      hd (Tensor.distinct_adjoint.mp hd')

end Lawful

/-! ## The adjoint of a tree -/

theorem Word.eval_reverse (w : Word) :
    eval gen w.reverse = unop (w.eval fun t => op (gen t)) := by
  rw [eval, List.map_reverse, eval, MulOpposite.unop_list_prod, List.map_map]
  rfl

theorem WordSum.eval_reverse (p : WordSum) :
    p.reverse.eval gen = unop (p.eval fun t => op (gen t)) := by
  rw [reverse, eval_ofWords OperatorAlgebra.lawful_gen.commute, eval, Combination.eval_map]
  simp only [Word.eval_reverse]
  exact (Combination.map_eval (MulOpposite.opLinearEquiv ℚ).symm.toLinearMap _ p).symm

namespace Expr

/-- The adjoint denotes the value of the tree at conjugated tensors, with products read
backwards. -/
theorem denote_adjoint (e : Expr) :
    e.adjoint.denote = unop (e.eval fun t => op (gen t.adjoint)) := by
  have hop := OperatorAlgebra.lawful_gen.op
  rw [adjoint, denote, WordSum.eval_toExpr, WordSum.eval_reverse, eval_expand hop.commute]
  simp only [eval_canonicalWords hop]

/-- The adjoint of a renamed tree is the renamed adjoint. -/
theorem adjoint_rename (σ : Renaming) (e : Expr) : (e.rename σ).adjoint = e.adjoint.rename σ := by
  refine eq_of_denote_eq (isCanonical_adjoint _) (isCanonical_rename σ _) ?_
  have hmap : OperatorAlgebra.rename σ (unop (e.eval fun t => op (gen t.adjoint))) =
      unop (e.eval fun t => op (OperatorAlgebra.rename σ (gen t.adjoint))) :=
    congrArg unop (map_eval (AlgHom.op (OperatorAlgebra.rename σ)) _ e)
  rw [denote_adjoint, eval_rename OperatorAlgebra.lawful_gen.op.conjugate, denote_rename,
    denote_adjoint, hmap]
  simp only [Tensor.adjoint_rename, OperatorAlgebra.rename_gen]

end Expr

end SecondQuant
