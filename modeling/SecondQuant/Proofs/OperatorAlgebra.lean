import Mathlib.Algebra.FreeAlgebra
import Mathlib.Algebra.RingQuot
import SecondQuant.Proofs.Evaluation
import SecondQuant.Proofs.TensorSymmetry

/-!
# The algebra of tensors

Trees denote elements of a ℚ-algebra given by generators and relations.  The generators are the
tensors; c-numbers commute with everything, operators do not commute with one another, symmetric
tensors ignore the order inside their lists, and antisymmetric ones follow it by sign and vanish
when a list repeats an index.

* `OperatorAlgebra`, `OperatorAlgebra.gen` — the algebra and its generators.
* `Expr.denote` — the element that a tree denotes.
* `Lawful` — an assignment of tensors that obeys the relations; `OperatorAlgebra.lift` extends it
  to the algebra.
* `lawful_canonicalWords` — any assignment becomes lawful when canonical forms are evaluated.
* `Expr.eval_canonical` — the canonical form has the value of the tree under every lawful
  assignment; `Expr.denote_canonical` is the case of the algebra itself.
-/

namespace SecondQuant

/-! ## Generators and relations -/

namespace OperatorAlgebra

open FreeAlgebra (ι)

/-- What is demanded of the generators. -/
inductive Relation : FreeAlgebra ℚ Tensor → FreeAlgebra ℚ Tensor → Prop
  /-- A c-number commutes with every tensor. -/
  | commute (s t : Tensor) (h : s.isOperator = false) :
      Relation (ι ℚ s * ι ℚ t) (ι ℚ t * ι ℚ s)
  /-- A symmetric tensor does not depend on the order inside its lists. -/
  | symmetric (t : Tensor) (σ : Equiv.Perm (Fin t.upper.length))
      (τ : Equiv.Perm (Fin t.lower.length)) (h : t.symmetry = .symmetric) :
      Relation (ι ℚ (t.permuted σ τ)) (ι ℚ t)
  /-- An antisymmetric tensor changes by the sign of the permutation of each list. -/
  | antisymmetric (t : Tensor) (σ : Equiv.Perm (Fin t.upper.length))
      (τ : Equiv.Perm (Fin t.lower.length)) (h : t.symmetry = .antisymmetric) :
      Relation (ι ℚ (t.permuted σ τ))
        ((((Equiv.Perm.sign σ * Equiv.Perm.sign τ : ℤˣ) : ℤ) : ℚ) • ι ℚ t)
  /-- An antisymmetric tensor that repeats an index in a list vanishes. -/
  | repeated (t : Tensor) (h : t.symmetry = .antisymmetric)
      (hd : ¬(t.upper.Nodup ∧ t.lower.Nodup)) : Relation (ι ℚ t) 0

end OperatorAlgebra

/-- The ℚ-algebra generated by the tensors under their symmetries. -/
abbrev OperatorAlgebra := RingQuot OperatorAlgebra.Relation

/-- The element of the algebra that a single tensor denotes. -/
noncomputable def OperatorAlgebra.gen (t : Tensor) : OperatorAlgebra :=
  RingQuot.mkAlgHom ℚ Relation (FreeAlgebra.ι ℚ t)

/-- The element of the algebra that a tree denotes. -/
noncomputable def Expr.denote (e : Expr) : OperatorAlgebra :=
  e.eval OperatorAlgebra.gen

/-! ## Lawful assignments -/

variable {A : Type} [Ring A] [Algebra ℚ A]

/-- Whether an assignment of tensors to elements of an algebra obeys the relations. -/
structure Lawful (g : Tensor → A) : Prop where
  commute : CNumbersCommute g
  symmetric : ∀ (t : Tensor) (σ : Equiv.Perm (Fin t.upper.length))
    (τ : Equiv.Perm (Fin t.lower.length)), t.symmetry = .symmetric → g (t.permuted σ τ) = g t
  antisymmetric : ∀ (t : Tensor) (σ : Equiv.Perm (Fin t.upper.length))
    (τ : Equiv.Perm (Fin t.lower.length)), t.symmetry = .antisymmetric →
      g (t.permuted σ τ) = (((Equiv.Perm.sign σ * Equiv.Perm.sign τ : ℤˣ) : ℤ) : ℚ) • g t
  repeated : ∀ t : Tensor, t.symmetry = .antisymmetric → ¬t.Distinct → g t = 0

namespace OperatorAlgebra

theorem lawful_gen : Lawful gen where
  commute s t h := by
    have hrel := RingQuot.mkAlgHom_rel ℚ (Relation.commute s t h)
    rwa [map_mul, map_mul] at hrel
  symmetric t σ τ h := RingQuot.mkAlgHom_rel ℚ (Relation.symmetric t σ τ h)
  antisymmetric t σ τ h := by
    have hrel := RingQuot.mkAlgHom_rel ℚ (Relation.antisymmetric t σ τ h)
    rwa [map_smul] at hrel
  repeated t h hd := by
    have hrel := RingQuot.mkAlgHom_rel ℚ (Relation.repeated t h hd)
    rwa [map_zero] at hrel

theorem lift_rel {g : Tensor → A} (hg : Lawful g) {x y : FreeAlgebra ℚ Tensor}
    (h : Relation x y) : FreeAlgebra.lift ℚ g x = FreeAlgebra.lift ℚ g y := by
  cases h with
  | commute s t h =>
      rw [map_mul, map_mul, FreeAlgebra.lift_ι_apply, FreeAlgebra.lift_ι_apply]
      exact hg.commute s t h
  | symmetric t σ τ h =>
      rw [FreeAlgebra.lift_ι_apply, FreeAlgebra.lift_ι_apply, hg.symmetric t σ τ h]
  | antisymmetric t σ τ h =>
      rw [map_smul, FreeAlgebra.lift_ι_apply, FreeAlgebra.lift_ι_apply, hg.antisymmetric t σ τ h]
  | repeated t h hd => rw [FreeAlgebra.lift_ι_apply, map_zero, hg.repeated t h hd]

/-- A lawful assignment extends to the whole algebra. -/
noncomputable def lift (g : Tensor → A) (hg : Lawful g) : OperatorAlgebra →ₐ[ℚ] A :=
  RingQuot.liftAlgHom ℚ ⟨FreeAlgebra.lift ℚ g, fun _ _ h => lift_rel hg h⟩

@[simp] theorem lift_gen (g : Tensor → A) (hg : Lawful g) (t : Tensor) :
    lift g hg (gen t) = g t := by
  rw [lift, gen, RingQuot.liftAlgHom_mkAlgHom_apply, FreeAlgebra.lift_ι_apply]

end OperatorAlgebra

/-! ## Algebra maps and evaluation -/

section Map

variable {B : Type} [Ring B] [Algebra ℚ B] (φ : A →ₐ[ℚ] B) (g : Tensor → A)

theorem Word.map_eval (w : Word) : φ (w.eval g) = w.eval fun t => φ (g t) := by
  rw [eval, map_list_prod, List.map_map, eval]
  rfl

theorem WordSum.map_eval (p : WordSum) : φ (p.eval g) = p.eval fun t => φ (g t) := by
  have h := Combination.map_eval φ.toLinearMap (Word.eval g) p
  simp only [AlgHom.toLinearMap_apply, Word.map_eval] at h
  exact h

mutual

/-- An algebra map may be applied before or after a tree is evaluated. -/
theorem Expr.map_eval : ∀ e : Expr, φ (e.eval g) = e.eval fun t => φ (g t)
  | .const r => φ.commutes r
  | .tensor _ => rfl
  | .sum ts => Expr.map_evalTerms ts
  | .prod es => Expr.map_evalFactors es

theorem Expr.map_evalTerms : ∀ ts : List Term,
    φ (Expr.evalTerms g ts) = Expr.evalTerms (fun t => φ (g t)) ts
  | [] => map_zero φ
  | (c, e) :: ts => by
      rw [Expr.evalTerms, map_add, map_smul, Expr.map_eval e, Expr.map_evalTerms ts,
        Expr.evalTerms]

theorem Expr.map_evalFactors : ∀ es : List Expr,
    φ (Expr.evalFactors g es) = Expr.evalFactors (fun t => φ (g t)) es
  | [] => map_one φ
  | e :: es => by
      rw [Expr.evalFactors, map_mul, Expr.map_eval e, Expr.map_evalFactors es, Expr.evalFactors]

end

end Map

/-- A lawful assignment factors through what a tree denotes. -/
theorem OperatorAlgebra.lift_denote (g : Tensor → A) (hg : Lawful g) (e : Expr) :
    lift g hg e.denote = e.eval g := by
  rw [Expr.denote, Expr.map_eval]
  simp only [lift_gen]

/-! ## The canonical form keeps the value -/

section Canonical

variable {f g : Tensor → A}

theorem eval_canonicalWords_of_some {t u : Tensor} {s : Sign} (h : t.canonical? = some (s, u)) :
    WordSum.eval f t.canonicalWords = s.toRat • f u := by
  rw [Tensor.canonicalWords, h, WordSum.eval_cons, WordSum.eval_nil, Word.eval_cons, Word.eval_nil,
    mul_one, add_zero]

theorem eval_canonicalWords_of_none {t : Tensor} (h : t.canonical? = none) :
    WordSum.eval f t.canonicalWords = 0 := by
  rw [Tensor.canonicalWords, h, WordSum.eval_nil]

theorem eval_canonicalWords_of_isCanonical {t : Tensor} (h : t.IsCanonical) :
    WordSum.eval f t.canonicalWords = f t := by
  rw [eval_canonicalWords_of_some h, Sign.toRat, one_smul]

/-- A signed canonical form of a c-number is a signed c-number. -/
theorem commute_canonicalWords (hf : CNumbersCommute f) :
    CNumbersCommute fun t => WordSum.eval f t.canonicalWords := by
  intro s t hs
  cases hcs : s.canonical? with
  | none =>
      simp only [eval_canonicalWords_of_none hcs]
      exact Commute.zero_left _
  | some p =>
      cases hct : t.canonical? with
      | none =>
          simp only [eval_canonicalWords_of_none hct]
          exact Commute.zero_right _
      | some q =>
          have hp : p.2.isOperator = false := by
            rw [Tensor.isOperator, Tensor.ladder_of_canonical? hcs]
            exact hs
          simp only [eval_canonicalWords_of_some hcs, eval_canonicalWords_of_some hct]
          exact ((hf p.2 q.2 hp).smul_left _).smul_right _

/-- Whatever the tensors are worth, the values of their signed canonical forms obey the
relations. -/
theorem lawful_canonicalWords (hf : CNumbersCommute f) :
    Lawful fun t => WordSum.eval f t.canonicalWords where
  commute := commute_canonicalWords hf
  symmetric t σ τ h := by
    rw [Tensor.canonicalWords, Tensor.canonical?_permuted_of_symmetric h]
    rfl
  antisymmetric t σ τ h := by
    by_cases hd : t.Distinct
    · have hd' : (t.permuted σ τ).Distinct := Tensor.distinct_permuted.mpr hd
      rw [eval_canonicalWords_of_some (Tensor.canonical?_of_distinct h hd),
        eval_canonicalWords_of_some (Tensor.canonical?_of_distinct (t := t.permuted σ τ) h hd'),
        Tensor.sorted_permuted, Tensor.toRat_sign_permuted hd, mul_smul]
    · have hd' : ¬(t.permuted σ τ).Distinct := fun h' => hd (Tensor.distinct_permuted.mp h')
      have hnone := Tensor.canonical?_of_not_distinct (t := t.permuted σ τ) h hd'
      rw [eval_canonicalWords_of_none (Tensor.canonical?_of_not_distinct h hd),
        eval_canonicalWords_of_none hnone, smul_zero]
  repeated t h hd := eval_canonicalWords_of_none (Tensor.canonical?_of_not_distinct h hd)

/-- A tensor is worth its signed canonical form. -/
theorem eval_canonicalWords (hg : Lawful g) (t : Tensor) :
    WordSum.eval g t.canonicalWords = g t := by
  obtain ⟨σ, τ, hst⟩ := t.exists_sorted_eq_permuted
  cases hs : t.symmetry with
  | plain => exact eval_canonicalWords_of_isCanonical (Tensor.isCanonical_of_plain hs)
  | symmetric =>
      rw [eval_canonicalWords_of_some (Tensor.canonical?_of_symmetric hs), Sign.toRat, one_smul,
        hst, hg.symmetric t σ τ hs]
  | antisymmetric =>
      by_cases hd : t.Distinct
      · have hsign :
            (((Equiv.Perm.sign σ * Equiv.Perm.sign τ : ℤˣ) : ℤ) : ℚ) * t.sign.toRat = 1 := by
          rw [← Tensor.toRat_sign_permuted hd, ← hst, Tensor.sign_sorted, Sign.toRat]
        rw [eval_canonicalWords_of_some (Tensor.canonical?_of_distinct hs hd), hst,
          hg.antisymmetric t σ τ hs, smul_smul, mul_comm, hsign, one_smul]
      · rw [eval_canonicalWords_of_none (Tensor.canonical?_of_not_distinct hs hd),
          hg.repeated t hs hd]

/-- The canonical form of a tree has the value of the tree. -/
theorem Expr.eval_canonical (hg : Lawful g) (e : Expr) : e.canonical.eval g = e.eval g := by
  rw [canonical, WordSum.eval_toExpr, eval_expand hg.commute]
  simp only [eval_canonicalWords hg]

end Canonical

namespace Expr

theorem denote_canonical (e : Expr) : e.canonical.denote = e.denote :=
  eval_canonical OperatorAlgebra.lawful_gen e

theorem denote_weightedSum (ts : List Term) :
    (weightedSum ts).denote = Combination.eval denote ts :=
  eval_weightedSum OperatorAlgebra.gen ts

theorem denote_product (es : List Expr) : (product es).denote = (es.map denote).prod :=
  eval_product OperatorAlgebra.lawful_gen.commute es

theorem denote_ofTensor (t : Tensor) : (ofTensor t).denote = OperatorAlgebra.gen t :=
  (eval_ofTensor _ t).trans (eval_canonicalWords OperatorAlgebra.lawful_gen t)

end Expr

end SecondQuant
