import SecondQuant.Proofs.CanonicalOperations

/-!
# Linear evaluation

Contraction, delta elimination and renumbering look at one term at a time and sum up what becomes
of it.  Terms may merge or cancel before, between and after these stages; none of that shows in the
result, because each stage is a linear map on canonical trees.

* `Expr.words_eq_singleton`, `Expr.of_words_eq_singleton` — expressions that are worth a multiple of
  a word.
* `Expr.words_combination` — the words of a combination of two trees.
* `Expr.mapTerms` — an operation that replaces terms one by one; `reduceDeltas` and
  `renumberDummies` are of this kind.
* `Expr.IsLinear`, `Expr.IsLinear.comp`, `Expr.IsLinear.map_weightedSum`, `Expr.isLinear_mapTerms` —
  linear operations on canonical trees.
* `contract_linear` — contraction is linear under all options.
-/

namespace SecondQuant

namespace Expr

/-! ## Words and their value -/

theorem denote_eq_eval_words (e : Expr) : e.denote = e.words.eval OperatorAlgebra.gen :=
  (eval_gen_expand e).symm

/-- The words of a canonical tree are those it is made of. -/
theorem words_toExpr {p : WordSum} (hp : p.IsCanonical) : p.toExpr.words = p := by
  refine WordSum.eq_of_eval_gen (isCanonical_canonicalWords_expand _) hp ?_
  rw [eval_gen_expand, denote, WordSum.eval_toExpr]

theorem words_eq_nil {e : Expr} (he : e.denote = 0) : e.words = [] :=
  WordSum.eq_of_eval_gen (isCanonical_canonicalWords_expand _) WordSum.built_nil
    (e.denote_eq_eval_words.symm.trans he)

/-- What is worth a multiple of a single word has that word alone. -/
theorem words_eq_singleton {e : Expr} {c : ℚ} {w : Word} (hc : c ≠ 0)
    (hw : ∀ t ∈ w, t.IsCanonical) (he : e.denote = c • w.eval OperatorAlgebra.gen) :
    e.words = [(c, w.normal)] := by
  refine WordSum.eq_of_eval_gen (isCanonical_canonicalWords_expand _)
    (WordSum.built_single hc (Word.built_normal hw)) ?_
  rw [← denote_eq_eval_words, he, WordSum.eval_cons, WordSum.eval_nil, add_zero,
    Word.eval_normal OperatorAlgebra.lawful_gen.commute]

/-- An expression with a single word is worth a multiple of it. -/
theorem of_words_eq_singleton {e : Expr} {c : ℚ} {w : Word} (h : e.words = [(c, w)]) :
    c ≠ 0 ∧ w.IsCanonical ∧ e.denote = c • w.eval OperatorAlgebra.gen := by
  have hcan : e.words.IsCanonical := e.isCanonical_canonicalWords_expand
  rw [h] at hcan
  refine ⟨(Combination.reduced_cons.mp hcan.1).1.1, hcan.2 _ List.mem_cons_self, ?_⟩
  rw [denote_eq_eval_words, h, WordSum.eval_cons, WordSum.eval_nil, add_zero]

/-! ## Combinations of two trees -/

theorem denote_smul (c : ℚ) (e : Expr) : (c • e).denote = c • e.denote := by
  have h : (c • e).denote = Combination.eval denote [(c, e)] := denote_weightedSum [(c, e)]
  simp [h]

theorem denote_add (d e : Expr) : (d + e).denote = d.denote + e.denote := by
  have h : (d + e).denote = Combination.eval denote [(1, d), (1, e)] :=
    denote_weightedSum [(1, d), (1, e)]
  simp [h]

theorem isCanonical_combination (c₁ c₂ : ℚ) {d e : Expr} (hd : d.IsCanonical)
    (he : e.IsCanonical) : (c₁ • d + c₂ • e).IsCanonical :=
  isCanonical_add (isCanonical_smul c₁ hd) (isCanonical_smul c₂ he)

theorem zero_smul_eq {e : Expr} (he : e.IsCanonical) : (0 : ℚ) • e = weightedSum [] := by
  refine eq_of_denote_eq (isCanonical_smul 0 he) (isCanonical_weightedSum (by simp)) ?_
  simp [denote_smul, denote_weightedSum]

/-- The first member of a weighted sum and the sum of the others. -/
theorem weightedSum_cons {t : Term} {ts : List Term} (ht : t.2.IsCanonical)
    (hts : ∀ x ∈ ts, x.2.IsCanonical) :
    weightedSum (t :: ts) = t.1 • t.2 + (1 : ℚ) • weightedSum ts := by
  refine eq_of_denote_eq (isCanonical_weightedSum (List.forall_mem_cons.mpr ⟨ht, hts⟩))
    (isCanonical_combination t.1 1 ht (isCanonical_weightedSum hts)) ?_
  simp [denote_add, denote_smul, denote_weightedSum]

/-- The words of a combination are those of the two trees, merged. -/
theorem words_combination (c₁ c₂ : ℚ) (d e : Expr) :
    (c₁ • d + c₂ • e).words = Combination.collect Word.cmp
      (Combination.scale c₁ d.words ++ Combination.scale c₂ e.words) := by
  have hmember : ∀ (c : ℚ) (x : Expr), ∀ t ∈ Combination.scale c x.words, t.2.IsCanonical := by
    intro c x t ht
    obtain ⟨s, hs, rfl⟩ := List.mem_map.mp ht
    exact x.isCanonical_canonicalWords_expand.2 s hs
  refine WordSum.eq_of_eval_gen (isCanonical_canonicalWords_expand _)
    (WordSum.built_collect (List.forall_mem_append.mpr ⟨hmember c₁ d, hmember c₂ e⟩)) ?_
  rw [← denote_eq_eval_words, denote_add, denote_smul, denote_smul, WordSum.eval,
    Combination.eval_collect, Combination.eval_append, Combination.eval_scale,
    Combination.eval_scale, denote_eq_eval_words d, denote_eq_eval_words e]
  rfl

/-- What is summed over the words of a combination is combined likewise. -/
theorem eval_words_combination {N : Type} [AddCommMonoid N] [Module ℚ N] (f : Word → N)
    (c₁ c₂ : ℚ) (d e : Expr) :
    Combination.eval f (c₁ • d + c₂ • e).words =
      c₁ • Combination.eval f d.words + c₂ • Combination.eval f e.words := by
  rw [words_combination, Combination.eval_collect, Combination.eval_append,
    Combination.eval_scale, Combination.eval_scale]

theorem terms_canonical (e : Expr) :
    e.canonical.terms = e.words.map fun t => (t.1, t.2.monomial) :=
  WordSum.terms_toExpr e.isCanonical_canonicalWords_expand

theorem terms_eq_words {e : Expr} (h : e.IsCanonical) :
    e.terms = e.words.map fun t => (t.1, t.2.monomial) := by
  rw [← terms_canonical, canonical_eq_self h]

/-! ## Operations on terms -/

/-- The weighted sum of what becomes of the terms of a tree. -/
def mapTerms (f : Expr → Expr) (e : Expr) : Expr :=
  weightedSum (e.terms.map fun t => (t.1, f t.2))

theorem reduceDeltas_eq_mapTerms : reduceDeltas = mapTerms reduceTerm := rfl

theorem renumberDummies_eq_mapTerms : renumberDummies = mapTerms renumberTerm := rfl

theorem denote_mapTerms (f : Expr → Expr) {e : Expr} (h : e.IsCanonical) :
    (e.mapTerms f).denote = Combination.eval (fun w => (f w.monomial).denote) e.words := by
  rw [mapTerms, denote_weightedSum, terms_eq_words h, List.map_map]
  exact Combination.eval_map denote (fun w : Word => f w.monomial) e.words

/-! ## Linear operations -/

/-- Whether an operation keeps trees canonical and respects combinations of canonical trees. -/
structure IsLinear (F : Expr → Expr) : Prop where
  isCanonical : ∀ {e : Expr}, e.IsCanonical → (F e).IsCanonical
  map_combination : ∀ (c₁ c₂ : ℚ) {d e : Expr}, d.IsCanonical → e.IsCanonical →
    F (c₁ • d + c₂ • e) = c₁ • F d + c₂ • F e

namespace IsLinear

variable {F G : Expr → Expr}

/-- Leaving trees as they are is linear. -/
theorem id : IsLinear fun e => e where
  isCanonical h := h
  map_combination _ _ _ _ _ _ := rfl

/-- Two linear operations one after the other are linear. -/
theorem comp (hF : IsLinear F) (hG : IsLinear G) : IsLinear fun e => F (G e) where
  isCanonical h := hF.isCanonical (hG.isCanonical h)
  map_combination c₁ c₂ _ _ hd he := by
    rw [hG.map_combination c₁ c₂ hd he,
      hF.map_combination c₁ c₂ (hG.isCanonical hd) (hG.isCanonical he)]

/-- A linear operation takes multiples to multiples. -/
theorem map_smul (hF : IsLinear F) (c : ℚ) {e : Expr} (he : e.IsCanonical) :
    F (c • e) = c • F e := by
  have hsingle : ∀ x : Expr, x.IsCanonical → c • x + (0 : ℚ) • x = c • x := by
    intro x hx
    refine eq_of_denote_eq (isCanonical_combination c 0 hx hx) (isCanonical_smul c hx) ?_
    simp [denote_add, denote_smul]
  rw [← hsingle e he, hF.map_combination c 0 he he, hsingle _ (hF.isCanonical he)]

/-- A linear operation takes a weighted sum to the weighted sum of what it makes of the members. -/
theorem map_weightedSum (hF : IsLinear F) {ts : List Term} (h : ∀ t ∈ ts, t.2.IsCanonical) :
    F (weightedSum ts) = weightedSum (ts.map fun t => (t.1, F t.2)) := by
  induction ts with
  | nil =>
      have hcan : (weightedSum []).IsCanonical := isCanonical_weightedSum (List.forall_mem_nil _)
      calc F (weightedSum [])
        _ = F ((0 : ℚ) • weightedSum []) := congrArg F (zero_smul_eq hcan).symm
        _ = (0 : ℚ) • F (weightedSum []) := hF.map_smul 0 hcan
        _ = weightedSum [] := zero_smul_eq (hF.isCanonical hcan)
  | cons t ts ih =>
      obtain ⟨ht, hts⟩ := List.forall_mem_cons.mp h
      rw [weightedSum_cons ht hts, hF.map_combination t.1 1 ht (isCanonical_weightedSum hts),
        ih hts, List.map_cons]
      refine (weightedSum_cons (t := (t.1, F t.2)) (hF.isCanonical ht) ?_).symm
      exact List.forall_mem_map.mpr fun x hx => hF.isCanonical (hts x hx)

end IsLinear

/-- Replacing the terms one by one is linear, whatever they are replaced by. -/
theorem isLinear_mapTerms {f : Expr → Expr} (hf : ∀ m : Expr, m.IsMonomial → (f m).IsCanonical) :
    IsLinear (mapTerms f) := by
  have hcan : ∀ {e : Expr}, e.IsCanonical → (e.mapTerms f).IsCanonical := by
    intro e he
    refine isCanonical_weightedSum (List.forall_mem_map.mpr ?_)
    intro t ht
    exact hf t.2 (isMonomial_of_mem_terms he ht)
  refine ⟨hcan, ?_⟩
  intro c₁ c₂ d e hd he
  have hsum := isCanonical_combination c₁ c₂ hd he
  refine eq_of_denote_eq (hcan hsum) (isCanonical_combination c₁ c₂ (hcan hd) (hcan he)) ?_
  rw [denote_mapTerms f hsum, eval_words_combination, denote_add, denote_smul, denote_smul,
    denote_mapTerms f hd, denote_mapTerms f he]

theorem isLinear_reduceDeltas : IsLinear reduceDeltas := by
  rw [reduceDeltas_eq_mapTerms]
  exact isLinear_mapTerms fun _ hm => isCanonical_eliminate _ hm.isCanonical

theorem isLinear_renumberDummies : IsLinear renumberDummies := by
  rw [renumberDummies_eq_mapTerms]
  exact isLinear_mapTerms fun _ _ => isCanonical_rename _ _

/-- What is done after the sum of the outcomes is linear under all options. -/
theorem isLinear_finish (o : Options) : IsLinear (finish o) := by
  unfold finish
  split
  · exact isLinear_renumberDummies.comp isLinear_reduceDeltas
  · exact IsLinear.id

end Expr

/-! ## Contraction -/

section Contraction

variable (o : Options) (M : Pattern)

theorem isCanonical_toExpr_contract (e : Expr) : (e.words.contract o M).toExpr.IsCanonical :=
  Expr.isCanonical_toExpr (WordSum.isCanonical_contract e.isCanonical_canonicalWords_expand)

/-- The contraction of an expression is worth the sum of the contractions of its words. -/
theorem denote_toExpr_contract (e : Expr) :
    (e.words.contract o M).toExpr.denote =
      Combination.eval (fun w => WordSum.eval OperatorAlgebra.gen (w.contract o M)) e.words := by
  rw [Expr.denote, WordSum.eval_toExpr, WordSum.eval_contract]

/-- The contracted words of a combination are those of the two trees, combined. -/
theorem toExpr_contract_combination (c₁ c₂ : ℚ) (a b : Expr) :
    ((c₁ • a + c₂ • b).words.contract o M).toExpr =
      c₁ • (a.words.contract o M).toExpr + c₂ • (b.words.contract o M).toExpr := by
  have hcan := isCanonical_toExpr_contract o M
  refine Expr.eq_of_denote_eq (hcan _) (Expr.isCanonical_combination c₁ c₂ (hcan a) (hcan b)) ?_
  rw [denote_toExpr_contract, Expr.eval_words_combination, Expr.denote_add, Expr.denote_smul,
    Expr.denote_smul, denote_toExpr_contract, denote_toExpr_contract]

end Contraction

/-- A combination has no words but those of the two trees. -/
theorem accepts_combination {M : Pattern} {a b : Expr} (c₁ c₂ : ℚ)
    (ha : ∀ t ∈ a.words, t.2.Accepts M) (hb : ∀ t ∈ b.words, t.2.Accepts M) :
    ∀ t ∈ (c₁ • a + c₂ • b).words, t.2.Accepts M := by
  rw [Expr.words_combination]
  apply Combination.mem_collect
  intro t ht
  rcases List.mem_append.mp ht with h | h
  · obtain ⟨s, hs, rfl⟩ := List.mem_map.mp h
    exact ha s hs
  · obtain ⟨s, hs, rfl⟩ := List.mem_map.mp h
    exact hb s hs

/-- **Contraction is linear.**  When two trees can be contracted along a pattern, so can every
combination of them, and the result is the combination of the two results, with or without the
elimination of deltas and in either basis. -/
theorem contract_linear {o : Options} {M : Pattern} {a b : Expr} {x y : Evaluation} (c₁ c₂ : ℚ)
    (ha : contract o M a = .ok x) (hb : contract o M b = .ok y) :
    ∃ z, contract o M (c₁ • a + c₂ • b) = .ok z ∧ z.result = c₁ • x.result + c₂ • y.result := by
  obtain ⟨haccepts, rfl⟩ := contract_eq_ok_iff.mp ha
  obtain ⟨hbaccepts, rfl⟩ := contract_eq_ok_iff.mp hb
  have hcan := isCanonical_toExpr_contract o M
  refine ⟨_, contract_eq_ok_iff.mpr ⟨accepts_combination c₁ c₂ haccepts hbaccepts, rfl⟩, ?_⟩
  show finish o ((c₁ • a + c₂ • b).words.contract o M).toExpr = _
  rw [toExpr_contract_combination,
    (Expr.isLinear_finish o).map_combination c₁ c₂ (hcan a) (hcan b)]

/-- A one-body term whose two operators can be contracted. -/
def oneBody (j k : Nat) : Expr :=
  .prod [.tensor (.cNumber "f" [.dummy .general j] [.dummy .general k] .plain),
    .annihilation .fermion (.dummy .general k), .creation .fermion (.dummy .general j)]

/-- The contraction of two neighbours. -/
def neighbours : Pattern :=
  ⟨[⟨0, 1⟩], by decide⟩

/-- What is left of a one-body term: its trace. -/
def oneBodyTrace : Expr :=
  .tensor (.cNumber "f" [.dummy .general 1] [.dummy .general 1] .plain)

/-- Different one-body terms have the same trace, and then their coefficients add up. -/
theorem contract_linear_oneBody :
    ∃ z, contract { orthonormal := true, reduce := true } neighbours
        ((2 : ℚ) • oneBody 1 2 + (3 : ℚ) • oneBody 3 4) = .ok z ∧
      z.result = .prod [.const 5, oneBodyTrace] := by
  have h₁ : contract { orthonormal := true, reduce := true } neighbours (oneBody 1 2) =
      .ok ⟨oneBody 1 2, oneBodyTrace, 1, 0, true⟩ := by decide +kernel
  have h₂ : contract { orthonormal := true, reduce := true } neighbours (oneBody 3 4) =
      .ok ⟨oneBody 3 4, oneBodyTrace, 1, 0, true⟩ := by decide +kernel
  obtain ⟨z, hz, hresult⟩ := contract_linear 2 3 h₁ h₂
  exact ⟨z, hz, hresult.trans (by decide +kernel)⟩

end SecondQuant
