import SecondQuant.Proofs.CanonicalOperations

/-!
# Substitution of indices

Renaming all indices at once need not be injective: tensors may become equal, change sign or vanish.
It is nevertheless a map of algebras, because renamed tensors obey the same relations.  So it does
not matter in which form a tree is renamed, and renamings compose.

* `lawful_rename`, `OperatorAlgebra.rename` — the map of algebras.
* `Expr.rename_canonical`, `Expr.rename_rename` — renaming a canonical form, and renaming twice.
* `Expr.rename_product`, `Expr.rename_weightedSum` — renaming products and sums.
* `Word.canonical?` — the sign and the letters of a product of tensors, or nothing if it vanishes.
* `Expr.rename_prod` — a renamed product is the tree of its signed letters.
-/

namespace SecondQuant

/-! ## Renamed tensors -/

/-- A list whose places are permuted may be mapped before or after. -/
theorem exists_permuted_map {α β : Type} (f : α → β) (l : List α)
    (σ : Equiv.Perm (Fin l.length)) :
    ∃ τ : Equiv.Perm (Fin (l.map f).length),
      (permuted l σ).map f = permuted (l.map f) τ ∧ Equiv.Perm.sign τ = Equiv.Perm.sign σ := by
  have hlen : l.length = (l.map f).length := (List.length_map f).symm
  refine ⟨(finCongr hlen).permCongr σ, ?_, Equiv.Perm.sign_permCongr _ _⟩
  refine List.ext_get (by simp) ?_
  intro k h₁ h₂
  simp [permuted, finCongr, Equiv.permCongr_apply]

/-- Renaming a tensor whose places are permuted is permuting the places of the renamed tensor. -/
theorem Tensor.exists_rename_permuted (σ : Renaming) (t : Tensor)
    (ρ : Equiv.Perm (Fin t.upper.length)) (τ : Equiv.Perm (Fin t.lower.length)) :
    ∃ ρ' τ', (t.permuted ρ τ).rename σ = (t.rename σ).permuted ρ' τ' ∧
      Equiv.Perm.sign ρ' * Equiv.Perm.sign τ' = Equiv.Perm.sign ρ * Equiv.Perm.sign τ := by
  obtain ⟨ρ', hρ, hρsign⟩ := exists_permuted_map σ t.upper ρ
  obtain ⟨τ', hτ, hτsign⟩ := exists_permuted_map σ t.lower τ
  refine ⟨ρ', τ', ?_, congrArg₂ (· * ·) hρsign hτsign⟩
  simp only [permuted, rename, hρ, hτ]

/-- Renaming the indices of a tensor obeys the relations of the algebra. -/
theorem lawful_rename (σ : Renaming) : Lawful fun t => OperatorAlgebra.gen (t.rename σ) where
  commute s t h := OperatorAlgebra.lawful_gen.commute (s.rename σ) (t.rename σ) h
  symmetric t ρ τ h := by
    obtain ⟨ρ', τ', hperm, _⟩ := t.exists_rename_permuted σ ρ τ
    rw [hperm]
    exact OperatorAlgebra.lawful_gen.symmetric (t.rename σ) ρ' τ' h
  antisymmetric t ρ τ h := by
    obtain ⟨ρ', τ', hperm, hsign⟩ := t.exists_rename_permuted σ ρ τ
    rw [hperm, ← hsign]
    exact OperatorAlgebra.lawful_gen.antisymmetric (t.rename σ) ρ' τ' h
  repeated t h hd := by
    refine OperatorAlgebra.lawful_gen.repeated (t.rename σ) h ?_
    intro hd'
    exact hd ⟨hd'.1.of_map σ, hd'.2.of_map σ⟩

/-- Renaming all indices, as a map of the algebra of tensors. -/
noncomputable def OperatorAlgebra.rename (σ : Renaming) : OperatorAlgebra →ₐ[ℚ] OperatorAlgebra :=
  lift _ (lawful_rename σ)

theorem OperatorAlgebra.rename_gen (σ : Renaming) (t : Tensor) :
    OperatorAlgebra.rename σ (gen t) = gen (t.rename σ) :=
  lift_gen _ (lawful_rename σ) t

/-! ## Renamed trees -/

namespace Expr

/-- A renamed tree is worth what the tree is worth at renamed tensors. -/
theorem eval_rename {A : Type} [Ring A] [Algebra ℚ A] {g : Tensor → A} (hg : Lawful g)
    (σ : Renaming) (e : Expr) : (e.rename σ).eval g = e.eval fun t => g (t.rename σ) := by
  rw [rename, WordSum.eval_toExpr, eval_expand hg.commute]
  simp only [eval_canonicalWords hg]

theorem denote_rename_eq_eval (σ : Renaming) (e : Expr) :
    (e.rename σ).denote = e.eval fun t => OperatorAlgebra.gen (t.rename σ) :=
  eval_rename OperatorAlgebra.lawful_gen σ e

theorem denote_rename (σ : Renaming) (e : Expr) :
    (e.rename σ).denote = OperatorAlgebra.rename σ e.denote := by
  rw [denote_rename_eq_eval, OperatorAlgebra.rename, OperatorAlgebra.lift_denote]

/-- Trees with the same meaning become the same tree under every renaming. -/
theorem rename_congr {d e : Expr} (h : d.denote = e.denote) (σ : Renaming) :
    d.rename σ = e.rename σ :=
  eq_of_denote_eq (isCanonical_rename σ d) (isCanonical_rename σ e)
    (by rw [denote_rename, denote_rename, h])

/-- It does not matter whether a tree is brought into canonical form before it is renamed. -/
theorem rename_canonical (σ : Renaming) (e : Expr) : e.canonical.rename σ = e.rename σ :=
  rename_congr (denote_canonical e) σ

/-- Renaming twice is renaming once. -/
theorem rename_rename (σ τ : Renaming) (e : Expr) :
    (e.rename σ).rename τ = e.rename (τ ∘ σ) := by
  refine eq_of_denote_eq (isCanonical_rename τ _) (isCanonical_rename _ e) ?_
  rw [denote_rename, denote_rename_eq_eval, map_eval, denote_rename_eq_eval]
  simp only [OperatorAlgebra.rename_gen, Tensor.rename_rename]

theorem rename_const (σ : Renaming) (r : ℚ) : (const r).rename σ = const r := by
  refine eq_of_denote_eq (isCanonical_rename σ _) (.const r) ?_
  rw [denote_rename, denote, eval_const, map_smul, map_one]

theorem rename_ofTensor (σ : Renaming) (t : Tensor) :
    (ofTensor t).rename σ = ofTensor (t.rename σ) := by
  refine eq_of_denote_eq (isCanonical_rename σ _) (isCanonical_ofTensor _) ?_
  rw [denote_rename, denote_ofTensor, denote_ofTensor, OperatorAlgebra.rename_gen]

/-- A renamed product is the product of the renamed factors. -/
theorem rename_product (σ : Renaming) (es : List Expr) :
    (product es).rename σ = product (es.map (rename σ)) := by
  have hes : ∀ e ∈ es.map (rename σ), e.IsCanonical :=
    List.forall_mem_map.mpr fun e _ => isCanonical_rename σ e
  refine eq_of_denote_eq (isCanonical_rename σ _) (isCanonical_product hes) ?_
  rw [denote_rename, denote_product, denote_product, map_list_prod, List.map_map, List.map_map]
  exact congrArg List.prod (List.map_congr_left fun e _ => (denote_rename σ e).symm)

/-- A renamed weighted sum is the weighted sum of the renamed members. -/
theorem rename_weightedSum (σ : Renaming) (ts : List Term) :
    (weightedSum ts).rename σ = weightedSum (ts.map fun t => (t.1, t.2.rename σ)) := by
  have hts : ∀ t ∈ ts.map (fun t => (t.1, t.2.rename σ)), t.2.IsCanonical :=
    List.forall_mem_map.mpr fun t _ => isCanonical_rename σ t.2
  refine eq_of_denote_eq (isCanonical_rename σ _) (isCanonical_weightedSum hts) ?_
  rw [denote_rename, denote_weightedSum, denote_weightedSum, Combination.eval_map]
  simp only [denote_rename]
  exact Combination.map_eval (OperatorAlgebra.rename σ).toLinearMap _ ts

/-- A multiple is renamed to a multiple. -/
theorem rename_smul (σ : Renaming) (c : ℚ) (e : Expr) : (c • e).rename σ = c • e.rename σ :=
  rename_weightedSum σ [(c, e)]

theorem rename_id (e : Expr) : e.rename id = e.canonical := by
  refine eq_of_denote_eq (isCanonical_rename id e) (isCanonical_canonical e) ?_
  rw [denote_rename_eq_eval, denote_canonical]
  simp only [Tensor.rename_id]
  rfl

end Expr

/-! ## Signed letters -/

/-- A canonical form has the lists of the tensor or the sorted ones, and in the first case no
sign. -/
theorem Tensor.canonical?_eq_some {t u : Tensor} {s : Sign} (h : t.canonical? = some (s, u)) :
    (s = .plus ∧ u = t) ∨ ((s = .plus ∨ s = t.sign) ∧ u = t.sorted) := by
  cases hs : t.symmetry with
  | plain =>
      rw [canonical?_of_plain hs] at h
      obtain ⟨rfl, rfl⟩ := Prod.mk.inj (Option.some.inj h)
      exact .inl ⟨rfl, rfl⟩
  | symmetric =>
      rw [canonical?_of_symmetric hs] at h
      obtain ⟨rfl, rfl⟩ := Prod.mk.inj (Option.some.inj h)
      exact .inr ⟨.inl rfl, rfl⟩
  | antisymmetric =>
      by_cases hd : t.Distinct
      · rw [canonical?_of_distinct hs hd] at h
        obtain ⟨rfl, rfl⟩ := Prod.mk.inj (Option.some.inj h)
        exact .inr ⟨.inr rfl, rfl⟩
      · rw [canonical?_of_not_distinct hs hd] at h
        cases h

/-- The letters of the canonical form of a tensor are the tensor or its sorted form. -/
theorem Tensor.eq_or_eq_sorted_of_mem_canonicalWords {t : Tensor} {s : ℚ × Word}
    (hs : s ∈ t.canonicalWords) : ∀ x ∈ s.2, x = t ∨ x = t.sorted := by
  unfold canonicalWords at hs
  split at hs
  · cases hs
  · next hu =>
      obtain rfl := List.mem_singleton.mp hs
      refine List.forall_mem_singleton.mpr ?_
      exact (canonical?_eq_some hu).imp And.right And.right

namespace Word

/-- The sign of a product of tensors and their canonical forms, or nothing if one of them
vanishes. -/
def canonical? : Word → Option (Sign × Word)
  | [] => some (.plus, [])
  | t :: w =>
      match t.canonical?, canonical? w with
      | some (s, u), some (s', v) => some (s * s', u :: v)
      | _, _ => none

/-- The tree of a product of tensors: its sign and its letters in normal form. -/
def tree (w : Word) : Expr :=
  match w.canonical? with
  | none => .zero
  | some (s, u) => .scaled s.toRat u.normal.monomial

theorem canonical?_nil {s : Sign} {u : Word} (h : canonical? [] = some (s, u)) : u = [] :=
  (Prod.mk.inj (Option.some.inj h)).2.symm

/-- A product has signed letters when its first tensor and the rest have. -/
theorem canonical?_cons {t : Tensor} {w u : Word} {s : Sign}
    (h : canonical? (t :: w) = some (s, u)) :
    ∃ r x r' v, t.canonical? = some (r, x) ∧ w.canonical? = some (r', v) ∧
      s = r * r' ∧ u = x :: v := by
  rw [canonical?] at h
  split at h
  · next r x r' v ht hw =>
      obtain ⟨rfl, rfl⟩ := Prod.mk.inj (Option.some.inj h)
      exact ⟨r, x, r', v, ht, hw, rfl, rfl⟩
  · cases h

theorem isCanonical_of_canonical? {w u : Word} {s : Sign} (h : w.canonical? = some (s, u)) :
    ∀ t ∈ u, t.IsCanonical := by
  induction w generalizing s u with
  | nil =>
      rw [canonical?_nil h]
      exact List.forall_mem_nil _
  | cons t w ih =>
      obtain ⟨_, _, _, _, ht, hw, _, rfl⟩ := canonical?_cons h
      exact List.forall_mem_cons.mpr ⟨Tensor.isCanonical_of_canonical? ht, ih hw⟩

theorem isCanonical_tree (w : Word) : w.tree.IsCanonical := by
  rw [tree]
  cases h : w.canonical? with
  | none => exact .const 0
  | some x =>
      exact Expr.isCanonical_scaled x.1.toRat_ne_zero (built_normal (isCanonical_of_canonical? h))

open OperatorAlgebra (gen)

/-- A tensor is worth its signed canonical form, and nothing if it vanishes. -/
theorem gen_eq (t : Tensor) :
    gen t = t.canonical?.elim 0 fun x => x.1.toRat • gen x.2 := by
  rw [← eval_canonicalWords OperatorAlgebra.lawful_gen t, Tensor.canonicalWords]
  cases t.canonical? with
  | none => rfl
  | some x => simp [WordSum.eval_cons]

/-- A product of tensors is worth its signed letters, and nothing if one of them vanishes. -/
theorem eval_gen_eq (w : Word) :
    w.eval gen = w.canonical?.elim 0 fun x => x.1.toRat • x.2.eval gen := by
  induction w with
  | nil => simp [canonical?, Sign.toRat]
  | cons t w ih =>
      rw [eval_cons, gen_eq, ih, canonical?]
      cases t.canonical? with
      | none => simp
      | some x =>
          cases canonical? w with
          | none => simp
          | some y => simp [smul_smul, Sign.toRat_mul, mul_comm]

theorem denote_tree (w : Word) : w.tree.denote = w.eval gen := by
  rw [eval_gen_eq, tree]
  cases w.canonical? with
  | none => exact Expr.eval_zero gen
  | some x =>
      show (Expr.scaled x.1.toRat x.2.normal.monomial).eval gen = x.1.toRat • x.2.eval gen
      rw [Expr.eval_scaled, eval_monomial, eval_normal OperatorAlgebra.lawful_gen.commute]

end Word

/-- A renamed product is the tree of its renamed letters. -/
theorem Expr.rename_prod (σ : Renaming) (w : Word) :
    (prod (w.map tensor)).rename σ = Word.tree (w.map (Tensor.rename σ)) := by
  refine eq_of_denote_eq (isCanonical_rename σ _) (Word.isCanonical_tree _) ?_
  rw [denote_rename_eq_eval, eval_prod, List.map_map, Word.denote_tree, Word.eval, List.map_map]
  rfl

end SecondQuant
