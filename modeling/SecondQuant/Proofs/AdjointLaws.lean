import SecondQuant.Proofs.AdjointAlgebra
import SecondQuant.Proofs.TreeAlgebra

/-!
# The adjoint is an involution

Conjugating a tensor twice gives it back, and reading a product backwards twice restores its order.
So the adjoint of the adjoint is the canonical form, and the adjoint turns the algebra of trees
around: it is linear, exchanges the factors of a product and commutes with renamings.

* `OperatorAlgebra.conjugation` — the conjugation of the algebra of tensors, as a map into the
  opposite algebra; `Expr.denote_adjoint_eq` reads the adjoint of a tree off it.
* `Expr.adjoint_laws` — **the adjoint is an involutive anti-automorphism**.
-/

namespace SecondQuant

open OperatorAlgebra (gen lawful_gen)
open MulOpposite (op unop)

/-! ## Conjugation in the algebra of tensors -/

/-- Every tensor goes to its conjugate, and products are read backwards. -/
noncomputable def OperatorAlgebra.conjugation : OperatorAlgebra →ₐ[ℚ] OperatorAlgebraᵐᵒᵖ :=
  lift (fun t => op (gen t.adjoint)) lawful_gen.op.conjugate

theorem OperatorAlgebra.conjugation_gen (t : Tensor) : conjugation (gen t) = op (gen t.adjoint) :=
  lift_gen _ _ t

namespace Expr

open OperatorAlgebra (conjugation)

/-- The adjoint denotes the conjugate of what the tree denotes. -/
theorem denote_adjoint_eq (e : Expr) : e.adjoint.denote = unop (conjugation e.denote) := by
  rw [denote_adjoint, conjugation, OperatorAlgebra.lift_denote]

/-- Conjugating twice reads products forwards again. -/
theorem conjugation_conjugation (e : Expr) :
    unop (conjugation (unop (conjugation e.denote))) = e.denote := by
  have hconj : conjugation e.denote = e.eval fun t => op (gen t.adjoint) :=
    OperatorAlgebra.lift_denote _ _ e
  have htwice : op (conjugation (unop (e.eval fun t => op (gen t.adjoint)))) =
      e.eval fun t => op (conjugation (gen t.adjoint)) :=
    map_eval (AlgHom.op conjugation) _ e
  have hid : op (op e.denote) = e.eval fun t => op (op (gen t)) :=
    map_eval (AlgEquiv.opOp ℚ OperatorAlgebra).toAlgHom gen e
  rw [← MulOpposite.op_inj, ← MulOpposite.op_inj, hid, hconj, MulOpposite.op_unop, htwice]
  simp only [OperatorAlgebra.conjugation_gen, Tensor.adjoint_adjoint]

/-! ## The laws -/

/-- The adjoint of the adjoint is the canonical form. -/
theorem adjoint_adjoint (e : Expr) : e.adjoint.adjoint = e.canonical := by
  refine eq_of_denote_eq (isCanonical_adjoint _) (isCanonical_canonical e) ?_
  rw [denote_adjoint_eq, denote_adjoint_eq, conjugation_conjugation, denote_canonical]

/-- The adjoint sees only the canonical form of a tree. -/
theorem adjoint_canonical (e : Expr) : e.canonical.adjoint = e.adjoint := by
  refine eq_of_denote_eq (isCanonical_adjoint _) (isCanonical_adjoint e) ?_
  rw [denote_adjoint_eq, denote_canonical, denote_adjoint_eq]

/-- The adjoint exchanges the factors of a product. -/
theorem adjoint_mul (a b : Expr) : (a * b).adjoint = b.adjoint * a.adjoint := by
  refine eq_of_denote_eq (isCanonical_adjoint _)
    (isCanonical_mul (isCanonical_adjoint b) (isCanonical_adjoint a)) ?_
  rw [denote_adjoint_eq, denote_mul, map_mul, MulOpposite.unop_mul, denote_mul,
    denote_adjoint_eq, denote_adjoint_eq]

/-- The adjoint is linear: coefficients are real. -/
theorem adjoint_combination (x y : ℚ) (a b : Expr) :
    (x • a + y • b).adjoint = x • a.adjoint + y • b.adjoint := by
  refine eq_of_denote_eq (isCanonical_adjoint _)
    (isCanonical_combination x y (isCanonical_adjoint a) (isCanonical_adjoint b)) ?_
  rw [denote_adjoint_eq, denote_add, denote_smul, denote_smul, map_add, map_smul, map_smul,
    denote_add, denote_smul, denote_smul, denote_adjoint_eq, denote_adjoint_eq,
    MulOpposite.unop_add, MulOpposite.unop_smul, MulOpposite.unop_smul]

/-- **The adjoint is an involutive anti-automorphism.**  Taken twice it gives the canonical form, it
sees only the canonical form, it exchanges the factors of products, is linear over the rationals and
commutes with every renaming; all trees are allowed, canonical or not. -/
theorem adjoint_laws :
    (∀ e : Expr, e.adjoint.adjoint = e.canonical) ∧
    (∀ e : Expr, e.adjoint = e.canonical.adjoint) ∧
    (∀ a b : Expr, (a * b).adjoint = b.adjoint * a.adjoint) ∧
    (∀ (x y : ℚ) (a b : Expr), (x • a + y • b).adjoint = x • a.adjoint + y • b.adjoint) ∧
    ∀ (σ : Renaming) (e : Expr), e.adjoint.rename σ = (e.rename σ).adjoint :=
  ⟨adjoint_adjoint, fun e => (adjoint_canonical e).symm, adjoint_mul, adjoint_combination,
    fun σ e => (adjoint_rename σ e).symm⟩

end Expr

end SecondQuant
