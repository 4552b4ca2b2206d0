import SecondQuant.Proofs.Renumbering

/-!
# The indices in use

A renaming acts on a tree through the indices that occur in it.  What it does elsewhere does not
matter, and a renaming that keeps the occurring indices apart never makes a term vanish: it only
moves signs and the order of factors.

* `Expr.rename_eq_of_eqOn`, `Expr.rename_eq_self` — only the indices in use count.
* `Expr.of_mem_indices_adjoint`, `Expr.of_mem_indices_product`, `Expr.of_mem_indices_weightedSum` —
  where the indices of a result come from.
* `Expr.IsSingleTerm` — canonical trees with one term: monomials with a coefficient.
* `Expr.IsSingleTerm.rename`, `Expr.IsSingleTerm.mem_indices_rename` — renaming such a tree without
  joining indices.
-/

namespace SecondQuant

/-! ## Renamings that agree -/

theorem Tensor.rename_eq_of_eqOn {σ τ : Renaming} {t : Tensor} (h : ∀ i ∈ t.indices, σ i = τ i) :
    t.rename σ = t.rename τ := by
  obtain ⟨hupper, hlower⟩ := List.forall_mem_append.mp h
  rw [rename, rename, List.map_congr_left hupper, List.map_congr_left hlower]

theorem Tensor.indices_rename (σ : Renaming) (t : Tensor) :
    (t.rename σ).indices = t.indices.map σ := by
  simp [indices, rename]

namespace Expr

section Evaluation

variable {A : Type} [Ring A] [Algebra ℚ A] {g g' : Tensor → A}

mutual

/-- The value of a tree depends on the values of its leaves only. -/
theorem eval_eq_of_leaves : ∀ e : Expr, (∀ t ∈ e.leaves, g t = g' t) → e.eval g = e.eval g'
  | const _, _ => rfl
  | tensor t, h => h t (List.mem_singleton.mpr rfl)
  | sum ts, h => evalTerms_eq_of_leaves ts h
  | prod es, h => evalFactors_eq_of_leaves es h

theorem evalTerms_eq_of_leaves : ∀ ts : List Term, (∀ t ∈ termLeaves ts, g t = g' t) →
    evalTerms g ts = evalTerms g' ts
  | [], _ => rfl
  | (c, e) :: ts, h => by
      obtain ⟨he, hts⟩ := List.forall_mem_append.mp h
      rw [evalTerms, evalTerms, eval_eq_of_leaves e he, evalTerms_eq_of_leaves ts hts]

theorem evalFactors_eq_of_leaves : ∀ es : List Expr, (∀ t ∈ factorLeaves es, g t = g' t) →
    evalFactors g es = evalFactors g' es
  | [], _ => rfl
  | e :: es, h => by
      obtain ⟨he, hes⟩ := List.forall_mem_append.mp h
      rw [evalFactors, evalFactors, eval_eq_of_leaves e he, evalFactors_eq_of_leaves es hes]

end

end Evaluation

theorem mem_indices_of_mem_leaves {e : Expr} {t : Tensor} (ht : t ∈ e.leaves) {i : Index}
    (hi : i ∈ t.indices) : i ∈ e.indices :=
  List.mem_flatMap.mpr ⟨t, ht, hi⟩

/-- Renamings that agree on the indices of a tree make the same tree of it. -/
theorem rename_eq_of_eqOn {σ τ : Renaming} {e : Expr} (h : ∀ i ∈ e.indices, σ i = τ i) :
    e.rename σ = e.rename τ := by
  refine eq_of_denote_eq (isCanonical_rename σ e) (isCanonical_rename τ e) ?_
  rw [denote_rename_eq_eval, denote_rename_eq_eval]
  refine eval_eq_of_leaves e fun t ht => ?_
  rw [Tensor.rename_eq_of_eqOn fun i hi => h i (mem_indices_of_mem_leaves ht hi)]

/-- A canonical tree whose indices are all kept is kept. -/
theorem rename_eq_self {σ : Renaming} {e : Expr} (he : e.IsCanonical)
    (h : ∀ i ∈ e.indices, σ i = i) : e.rename σ = e := by
  have hid : e.rename σ = e.rename id := rename_eq_of_eqOn h
  rw [hid, rename_id, canonical_eq_self he]

end Expr

/-! ## The indices of a tree -/

namespace Word

/-- The indices of a word in reading order, repetitions included. -/
def indices (w : Word) : List Index :=
  w.flatMap Tensor.indices

theorem mem_indices {w : Word} {i : Index} : i ∈ w.indices ↔ ∃ t ∈ w, i ∈ t.indices :=
  List.mem_flatMap

theorem mem_indices_cons {t : Tensor} {w : Word} {i : Index} :
    i ∈ indices (t :: w) ↔ i ∈ t.indices ∨ i ∈ w.indices := by
  rw [indices, List.flatMap_cons, List.mem_append, ← indices]

theorem mem_indices_of_perm {u v : Word} (h : u.Perm v) {i : Index} :
    i ∈ u.indices ↔ i ∈ v.indices := by
  simp only [mem_indices, h.mem_iff]

theorem mem_indices_normal {w : Word} {i : Index} : i ∈ w.normal.indices ↔ i ∈ w.indices :=
  mem_indices_of_perm w.normal_perm

theorem reading_perm (w : Word) : w.reading.Perm w := by
  refine ((sortBy_perm Tensor.blindCmp w.cNumbers).append_right _).trans ?_
  refine ((sortBy_perm compare w.cNumbers).symm.append_right _).trans ?_
  rw [← normal_eq]
  exact w.normal_perm

theorem indices_rename (σ : Renaming) (w : Word) :
    indices (w.map (Tensor.rename σ)) = w.indices.map σ :=
  flatMap_indices_rename σ w

/-- Signed letters have the indices of the tensors that they come from. -/
theorem mem_indices_of_canonical? {v u : Word} {s : Sign} (h : v.canonical? = some (s, u))
    {i : Index} : i ∈ u.indices ↔ i ∈ v.indices := by
  induction v generalizing s u with
  | nil => rw [canonical?_nil h]
  | cons t v ih =>
      obtain ⟨_, x, _, w, ht, hw, _, rfl⟩ := canonical?_cons h
      have hx : i ∈ x.indices ↔ i ∈ t.indices := by
        rcases Tensor.canonical?_eq_some ht with ⟨_, rfl⟩ | ⟨_, rfl⟩
        · rfl
        · exact Tensor.mem_indices_sorted
      simp only [mem_indices_cons, hx, ih hw]

theorem indices_monomial (w : Word) : w.monomial.indices = w.indices := by
  rw [Expr.indices, leaves_monomial, indices]

theorem leaves_scaled {c : ℚ} (hc : c ≠ 0) (w : Word) : (Expr.scaled c w.monomial).leaves = w := by
  by_cases h1 : c = 1
  · rw [h1, Expr.one_scaled, leaves_monomial]
  · match w with
    | [] =>
        have hconst : Expr.scaled c (monomial []) = Expr.const c := Expr.scaled_one c
        rw [hconst, Expr.leaves]
    | t :: w =>
        rw [Expr.scaled_monomial hc h1 (List.cons_ne_nil t w)]
        show Expr.factorLeaves ((t :: w).map .tensor) = t :: w
        rw [Expr.factorLeaves_map_tensor]

theorem indices_scaled {c : ℚ} (hc : c ≠ 0) (w : Word) :
    (Expr.scaled c w.monomial).indices = w.indices := by
  rw [Expr.indices, leaves_scaled hc, indices]

end Word

namespace Expr

theorem termLeaves_monomials (p : WordSum) :
    termLeaves (p.map fun t => (t.1, t.2.monomial)) = p.flatMap Prod.snd := by
  induction p with
  | nil => rfl
  | cons t p ih => rw [List.map_cons, termLeaves, ih, Word.leaves_monomial, List.flatMap_cons]

/-- The leaves of the tree of a canonical sum are the letters of its words. -/
theorem leaves_toExpr {p : WordSum} (hp : p.IsCanonical) :
    p.toExpr.leaves = p.flatMap Prod.snd := by
  match p, hp with
  | [], _ => rfl
  | [(c, w)], hp =>
      rw [List.flatMap_singleton]
      exact Word.leaves_scaled (Combination.reduced_cons.mp hp.1).1.1 w
  | s :: t :: p, _ => exact termLeaves_monomials (s :: t :: p)

/-- The indices of a canonical tree are those of its terms. -/
theorem mem_indices_iff_terms {e : Expr} (he : e.IsCanonical) {i : Index} :
    i ∈ e.indices ↔ ∃ t ∈ e.terms, i ∈ t.2.indices := by
  obtain ⟨p, hp, rfl⟩ := isCanonical_iff.mp he
  rw [WordSum.terms_toExpr hp, indices, leaves_toExpr hp, List.flatMap_assoc, List.mem_flatMap]
  have hmonomial : ∀ t : ℚ × Word, t.2.flatMap Tensor.indices = t.2.monomial.indices :=
    fun t => t.2.indices_monomial.symm
  constructor
  · rintro ⟨t, ht, hi⟩
    exact ⟨_, List.mem_map_of_mem ht, hmonomial t ▸ hi⟩
  · rintro ⟨_, hterm, hi⟩
    obtain ⟨t, ht, rfl⟩ := List.mem_map.mp hterm
    exact ⟨t, ht, (hmonomial t).symm ▸ hi⟩

/-- The indices of the tree of a canonical sum have what the indices of its letters have. -/
theorem of_mem_indices_toExpr {p : WordSum} (hp : p.IsCanonical) {Q : Index → Prop}
    (hbuilt : p.Built fun x => ∀ i ∈ x.indices, Q i) {i : Index} (h : i ∈ p.toExpr.indices) :
    Q i := by
  obtain ⟨t, ht, hi⟩ := List.mem_flatMap.mp h
  rw [leaves_toExpr hp] at ht
  obtain ⟨s, hs, ht⟩ := List.mem_flatMap.mp ht
  exact (hbuilt.2 s hs).2 t ht i hi

/-- The canonical form of a tensor has no other indices than the tensor. -/
theorem of_mem_canonicalWords {t : Tensor} {s : ℚ × Word} (hs : s ∈ t.canonicalWords) :
    ∀ x ∈ s.2, ∀ i ∈ x.indices, i ∈ t.indices := by
  intro x hx i hi
  rcases Tensor.eq_or_eq_sorted_of_mem_canonicalWords hs x hx with rfl | rfl
  · exact hi
  · exact Tensor.mem_indices_sorted.mp hi

theorem of_mem_indices_ofTensor {t : Tensor} {i : Index} (h : i ∈ (ofTensor t).indices) :
    i ∈ t.indices := by
  have hcan := t.isCanonical_canonicalWords
  refine of_mem_indices_toExpr (Q := fun i => i ∈ t.indices) hcan ⟨hcan.1, fun s hs => ?_⟩ h
  exact ⟨(hcan.2 s hs).1, of_mem_canonicalWords hs⟩

/-- The adjoint has no other indices. -/
theorem of_mem_indices_adjoint {e : Expr} {i : Index} (h : i ∈ e.adjoint.indices) :
    i ∈ e.indices := by
  have hadjoint : ∀ t : Tensor, ∀ i ∈ t.adjoint.indices, i ∈ t.indices := by
    intro t i hi
    unfold Tensor.adjoint at hi
    split at hi
    · exact hi
    · simpa [Tensor.indices, or_comm] using hi
  have hcan : (e.expand fun t => t.adjoint.canonicalWords).IsCanonical :=
    isCanonical_expand fun _ _ _ hs => Tensor.isCanonical_of_mem_canonicalWords hs
  have hbuilt : (e.expand fun t => t.adjoint.canonicalWords).Built
      fun x => ∀ i ∈ x.indices, i ∈ e.indices := built_expand e fun t ht s hs x hx i hi =>
    mem_indices_of_mem_leaves ht (hadjoint t i (of_mem_canonicalWords hs x hx i hi))
  exact of_mem_indices_toExpr (Q := fun i => i ∈ e.indices)
    (WordSum.built_reverse fun t ht => (hcan.2 t ht).2)
    (WordSum.built_reverse fun t ht => (hbuilt.2 t ht).2) h

/-- A product has no other indices than its factors. -/
theorem of_mem_indices_product {es : List Expr} (h : ∀ e ∈ es, e.IsCanonical) {i : Index}
    (hi : i ∈ (product es).indices) : ∃ e ∈ es, i ∈ e.indices := by
  have hleaves : ∀ {es : List Expr}, ∀ t ∈ factorLeaves es, ∃ e ∈ es, t ∈ e.leaves := by
    intro es
    induction es with
    | nil => exact List.forall_mem_nil _
    | cons e es ih =>
        refine List.forall_mem_append.mpr ⟨fun t ht => ⟨e, List.mem_cons_self, ht⟩, ?_⟩
        intro t ht
        obtain ⟨e', he', ht⟩ := ih t ht
        exact ⟨e', List.mem_cons_of_mem e he', ht⟩
  have hbuilt : ∀ {P : Tensor → Prop}, (∀ t ∈ factorLeaves es, P t) →
      (expandFactors (fun t => [(1, [t])]) es).Built P := by
    refine fun hP => built_expandFactors es fun t ht s hs => ?_
    obtain rfl := List.mem_singleton.mp hs
    exact List.forall_mem_singleton.mpr (hP t ht)
  refine of_mem_indices_toExpr (Q := fun i => ∃ e ∈ es, i ∈ e.indices)
    (hbuilt (isCanonical_of_mem_factorLeaves_of_forall h)) (hbuilt fun t ht i hi => ?_) hi
  obtain ⟨e, he, ht⟩ := hleaves t ht
  exact ⟨e, he, mem_indices_of_mem_leaves ht hi⟩

/-- A weighted sum has no other indices than its members. -/
theorem of_mem_indices_weightedSum {ts : List Term} (h : ∀ t ∈ ts, t.2.IsCanonical) {i : Index}
    (hi : i ∈ (weightedSum ts).indices) : ∃ t ∈ ts, i ∈ t.2.indices := by
  obtain ⟨s, hs, hi⟩ := (mem_indices_iff_terms (isCanonical_weightedSum h)).mp hi
  refine of_mem_terms_weightedSum h (P := fun m => ∀ i ∈ m.indices, ∃ t ∈ ts, i ∈ t.2.indices)
    (fun t ht s hs i hi => ?_) s hs i hi
  exact ⟨t, ht, (mem_indices_iff_terms (h t ht)).mpr ⟨s, hs, hi⟩⟩

end Expr

/-! ## Renaming without joining indices -/

/-- Whether a renaming keeps the members of a list apart. -/
def Renaming.KeepsApart (σ : Renaming) (is : List Index) : Prop :=
  ∀ i ∈ is, ∀ j ∈ is, σ i = σ j → i = j

theorem Renaming.KeepsApart.mono {σ : Renaming} {is js : List Index} (h : σ.KeepsApart js)
    (hsub : ∀ i ∈ is, i ∈ js) : σ.KeepsApart is :=
  fun i hi j hj => h i (hsub i hi) j (hsub j hj)

/-- A canonical tensor does not vanish under a renaming that keeps its indices apart. -/
theorem Tensor.exists_canonical?_rename {σ : Renaming} {t : Tensor} (ht : t.IsCanonical)
    (hσ : σ.KeepsApart t.indices) : ∃ s u, (t.rename σ).canonical? = some (s, u) := by
  cases hs : t.symmetry with
  | plain => exact ⟨_, _, canonical?_of_plain (t := t.rename σ) hs⟩
  | symmetric => exact ⟨_, _, canonical?_of_symmetric (t := t.rename σ) hs⟩
  | antisymmetric =>
      have hd : t.Distinct := by
        by_contra hd
        exact nomatch (canonical?_of_not_distinct hs hd).symm.trans ht
      have hd' : (t.rename σ).Distinct :=
        ⟨hd.1.map_on (hσ.mono fun i => List.mem_append_left _),
          hd.2.map_on (hσ.mono fun i => List.mem_append_right _)⟩
      exact ⟨_, _, canonical?_of_distinct (t := t.rename σ) hs hd'⟩

theorem Word.exists_canonical?_rename {σ : Renaming} {w : Word} (hw : ∀ t ∈ w, t.IsCanonical)
    (hσ : σ.KeepsApart w.indices) : ∃ s u, canonical? (w.map (Tensor.rename σ)) = some (s, u) := by
  induction w with
  | nil => exact ⟨.plus, [], rfl⟩
  | cons t w ih =>
      obtain ⟨ht, hw⟩ := List.forall_mem_cons.mp hw
      obtain ⟨s, x, hx⟩ := Tensor.exists_canonical?_rename ht
        (hσ.mono fun i hi => mem_indices_cons.mpr (.inl hi))
      obtain ⟨s', v, hv⟩ := ih hw (hσ.mono fun i hi => mem_indices_cons.mpr (.inr hi))
      refine ⟨s * s', x :: v, ?_⟩
      rw [List.map_cons, canonical?, hx, hv]

/-- A renamed tree of letters is the tree of the renamed letters. -/
theorem Word.rename_tree (σ : Renaming) (v : Word) :
    v.tree.rename σ = tree (v.map (Tensor.rename σ)) := by
  rw [← Expr.rename_prod]
  refine Expr.rename_congr ?_ σ
  rw [denote_tree, Expr.denote, Expr.eval_prod, List.map_map]
  rfl

/-- A canonical word makes its own tree. -/
theorem Word.tree_eq_monomial {w : Word} (hw : w.IsCanonical) : w.tree = w.monomial := by
  refine Expr.eq_of_denote_eq w.isCanonical_tree (Expr.isMonomial_monomial hw).isCanonical ?_
  rw [denote_tree, Expr.denote, eval_monomial]

theorem Word.rename_monomial (σ : Renaming) {w : Word} (hw : w.IsCanonical) :
    w.monomial.rename σ = tree (w.map (Tensor.rename σ)) := by
  rw [← tree_eq_monomial hw, rename_tree]

/-! ## Single terms -/

namespace Expr

/-- Whether the tree is canonical and has a single term, with a coefficient of any value. -/
def IsSingleTerm (e : Expr) : Prop :=
  e.IsCanonical ∧ ∃ t, e.terms = [t]

theorem isSingleTerm_iff {e : Expr} :
    e.IsSingleTerm ↔ ∃ (c : ℚ) (w : Word), c ≠ 0 ∧ w.IsCanonical ∧ e = scaled c w.monomial := by
  constructor
  · rintro ⟨he, t, ht⟩
    obtain ⟨p, hp, rfl⟩ := isCanonical_iff.mp he
    rw [WordSum.terms_toExpr hp] at ht
    obtain ⟨x, rfl, rfl⟩ := List.map_eq_singleton_iff.mp ht
    exact ⟨x.1, x.2, (Combination.reduced_cons.mp hp.1).1.1, hp.2 x List.mem_cons_self, rfl⟩
  · rintro ⟨c, w, hc, hw, rfl⟩
    exact ⟨isCanonical_scaled hc hw, _, Word.terms_scaled hc w⟩

theorem denote_scaled (c : ℚ) (m : Expr) : (scaled c m).denote = c • m.denote :=
  eval_scaled OperatorAlgebra.gen c m

/-- A multiple of a scaled monomial has the product of the coefficients. -/
theorem smul_scaled {k c : ℚ} (hk : k ≠ 0) (hc : c ≠ 0) {w : Word} (hw : w.IsCanonical) :
    k • scaled c w.monomial = scaled (k * c) w.monomial := by
  refine eq_of_denote_eq (isCanonical_smul k (isCanonical_scaled hc hw))
    (isCanonical_scaled (mul_ne_zero hk hc) hw) ?_
  rw [denote_smul, denote_scaled, denote_scaled, smul_smul]

theorem scaled_eq_smul {c : ℚ} (hc : c ≠ 0) {w : Word} (hw : w.IsCanonical) :
    scaled c w.monomial = c • w.monomial := by
  have h := smul_scaled hc one_ne_zero hw
  rw [one_scaled, mul_one] at h
  exact h.symm

namespace IsSingleTerm

variable {e : Expr} {σ : Renaming} {k : ℚ}

theorem indices_smul (h : e.IsSingleTerm) (hk : k ≠ 0) : (k • e).indices = e.indices := by
  obtain ⟨c, w, hc, hw, rfl⟩ := isSingleTerm_iff.mp h
  rw [smul_scaled hk hc hw, Word.indices_scaled (mul_ne_zero hk hc), Word.indices_scaled hc]

/-- The signed letters of a renamed term. -/
theorem exists_rename_eq (h : e.IsSingleTerm) (hσ : σ.KeepsApart e.indices) :
    ∃ (c : ℚ) (u : Word), c ≠ 0 ∧ u.IsCanonical ∧ e.rename σ = scaled c u.monomial ∧
      ∀ i, i ∈ u.indices ↔ i ∈ e.indices.map σ := by
  obtain ⟨c, w, hc, hw, rfl⟩ := isSingleTerm_iff.mp h
  rw [Word.indices_scaled hc] at hσ ⊢
  obtain ⟨s, u, hu⟩ := Word.exists_canonical?_rename hw.2 hσ
  have hcan : u.normal.IsCanonical := Word.built_normal (Word.isCanonical_of_canonical? hu)
  refine ⟨c * s.toRat, u.normal, mul_ne_zero hc s.toRat_ne_zero, hcan, ?_, fun i => ?_⟩
  · rw [scaled_eq_smul hc hw, rename_smul, Word.rename_monomial σ hw, Word.tree, hu]
    exact smul_scaled hc s.toRat_ne_zero hcan
  · rw [Word.mem_indices_normal, Word.mem_indices_of_canonical? hu, Word.indices_rename]

/-- A renaming that keeps indices apart leaves a single term. -/
theorem rename (h : e.IsSingleTerm) (hσ : σ.KeepsApart e.indices) :
    (e.rename σ).IsSingleTerm := by
  obtain ⟨c, u, hc, hu, heq, _⟩ := h.exists_rename_eq hσ
  exact isSingleTerm_iff.mpr ⟨c, u, hc, hu, heq⟩

/-- All indices of the term are renamed, none disappears. -/
theorem mem_indices_rename (h : e.IsSingleTerm) (hσ : σ.KeepsApart e.indices) {i : Index} :
    i ∈ (e.rename σ).indices ↔ ∃ j ∈ e.indices, σ j = i := by
  obtain ⟨c, u, hc, _, heq, hmem⟩ := h.exists_rename_eq hσ
  rw [heq, Word.indices_scaled hc, hmem, List.mem_map]

end IsSingleTerm

end Expr

end SecondQuant
