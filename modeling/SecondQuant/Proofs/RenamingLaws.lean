import SecondQuant.Proofs.Replacement

/-!
# The laws of renaming

A renaming is applied to all indices at once: it need not be injective, may exchange indices or run
in cycles, and tensors may become equal, change sign or vanish under it.  Two renamings one after
the other are a single one all the same, the form in which a tree is written does not matter, and
products and sums may be renamed member by member.

* `Renaming.compose`, `Renaming.ofTable_compose` — the table of two tables one after the other.
* `Expr.rename_eq_canonical_replace` — renaming replaces every tensor by the renamed one.
* `Expr.rename_laws` — **renaming is simultaneous, functorial and a map of algebras**.
-/

namespace SecondQuant

/-! ## Tables one after the other -/

namespace Renaming

/-- The table of two tables one after the other.  The entries of the first one are renamed by the
second and stand last, so that they count for every index that the first table lists. -/
def compose (first second : List (Index × Index)) : List (Index × Index) :=
  second ++ first.map fun x => (x.1, ofTable second x.2)

/-- The composed table sends an index to what the second table makes of its image under the
first. -/
theorem ofTable_compose (first second : List (Index × Index)) :
    ofTable (compose first second) = ofTable second ∘ ofTable first := by
  funext i
  -- The last entry for an index counts, so the first table is taken apart from its end.
  induction first using List.reverseRecOn with
  | nil => rw [compose, List.map_nil, List.append_nil, ofTable_nil, Function.comp_id]
  | append_singleton first x ih =>
      obtain ⟨old, new⟩ := x
      have hconcat : compose (first ++ [(old, new)]) second =
          compose first second ++ [(old, ofTable second new)] := by
        rw [compose, compose, List.map_append, List.map_singleton, List.append_assoc]
      rw [hconcat, ofTable_concat, ih, Function.comp_apply, Function.comp_apply, ofTable_concat]
      split <;> rfl

end Renaming

/-! ## The laws -/

namespace Expr

/-- Renaming a tree replaces every tensor by the tensor with all its indices renamed. -/
theorem rename_eq_canonical_replace (σ : Renaming) (e : Expr) :
    e.rename σ = (e.replace fun t => tensor (t.rename σ)).canonical :=
  toExpr_expand_eq (fun _ _ => Tensor.isCanonical_of_mem_canonicalWords)
    fun t _ => eval_canonicalWords OperatorAlgebra.lawful_gen (t.rename σ)

theorem rename_mul (σ : Renaming) (a b : Expr) : (a * b).rename σ = a.rename σ * b.rename σ :=
  rename_product σ [a, b]

theorem rename_add (σ : Renaming) (a b : Expr) : (a + b).rename σ = a.rename σ + b.rename σ :=
  rename_weightedSum σ [(1, a), (1, b)]

/-- **Renaming is simultaneous, functorial and a map of algebras.**  All indices are replaced at
once and the tree is then brought into canonical form; renaming twice is renaming once by the
composition, which for two tables is again a table; a tree may be brought into canonical form
before; and products and sums are renamed member by member.  All trees and all renamings are
allowed, also those that join indices. -/
theorem rename_laws :
    (∀ (σ : Renaming) (e : Expr),
      e.rename σ = (e.replace fun t => tensor (t.rename σ)).canonical) ∧
    (∀ (σ τ : Renaming) (e : Expr), (e.rename σ).rename τ = e.rename (τ ∘ σ)) ∧
    (∀ (s t : List (Index × Index)) (e : Expr),
      (e.rename (.ofTable s)).rename (.ofTable t) = e.rename (.ofTable (Renaming.compose s t)) ∧
        ∀ i, Renaming.ofTable (Renaming.compose s t) i =
          Renaming.ofTable t (Renaming.ofTable s i)) ∧
    (∀ (σ : Renaming) (e : Expr), e.rename σ = e.canonical.rename σ) ∧
    (∀ (σ : Renaming) (a b : Expr), (a * b).rename σ = a.rename σ * b.rename σ) ∧
    ∀ (σ : Renaming) (a b : Expr), (a + b).rename σ = a.rename σ + b.rename σ := by
  refine ⟨rename_eq_canonical_replace, rename_rename, fun s t e => ⟨?_, fun i => ?_⟩,
    fun σ e => (rename_canonical σ e).symm, rename_mul, rename_add⟩
  · rw [rename_rename, Renaming.ofTable_compose]
  · rw [Renaming.ofTable_compose, Function.comp_apply]

/-- Exchanging the two upper indices of an antisymmetric tensor changes its sign, and exchanging
them once more restores it. -/
example :
    let i := Index.dummy .general 1
    let j := Index.dummy .general 2
    let e := cNumber "g" [i, j] [.dummy .general 3, .dummy .general 4] .antisymmetric
    e.rename (.ofTable [(i, j), (j, i)]) = (-1 : ℚ) • e ∧
      (e.rename (.ofTable [(i, j), (j, i)])).rename (.ofTable [(i, j), (j, i)]) = e := by
  decide +kernel

end Expr

end SecondQuant
