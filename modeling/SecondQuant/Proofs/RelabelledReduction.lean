import SecondQuant.Proofs.DeltaElimination
import SecondQuant.Proofs.DummyRenaming
import SecondQuant.Proofs.RelabelledContraction

/-!
# Reducing relabelled terms

Two runs of the reduction are followed side by side, one on a term and one on the same term
relabelled.  Both find the same delta at the same place and eliminate it in the same direction, so
after each step the second term is the first one relabelled.  Renumbering then gives both the same
numbers, for it reads letters without looking at labels and numbers them by first appearance.

* `Elimination.ofIndices?_relabel`, `Elimination.toRenaming_relabel` — one delta in both runs.
* `Expr.deltaStep?_tree_relabel`, `Word.exists_tree_eliminate` — one step, and all of them.
* `Renumbers`, `numberFrom_map` — one pass of the numbering over other numbers.
* `Word.renumberTerm_eq_of_reading` — terms that are read alike become the same term.
* `Expr.mapTerms_relabel` — from terms to sums; `Expr.reduceDeltas_relabel` and
  `Expr.renumberDummies_relabel` are its two cases.
-/

namespace SecondQuant

variable {r : Renaming} {is : List Index}

/-! ## One delta -/

namespace Elimination

variable {p q : Index} {x : Elimination}

/-- The elimination with its indices renamed. -/
def rename (r : Renaming) : Elimination → Elimination
  | trivial => trivial
  | replace old new => replace (r old) (r new)

/-- A delta between new labels is eliminated as the one between the old labels. -/
theorem ofIndices?_relabel (h : Relabels r is) (hp : p ∈ is) (hq : q ∈ is) :
    ofIndices? (r p) (r q) = (ofIndices? p q).map (rename r) := by
  unfold ofIndices?
  simp only [h.eq_iff hp hq, h.space p hp, h.space q hq, h.kind p hp, h.kind q hq]
  split
  · rfl
  · split
    · rfl
    · split
      · rfl
      · split
        · rfl
        · rfl

/-- What an elimination does to an index it does to its new label. -/
theorem toRenaming_relabel (h : Relabels r is) (hp : p ∈ is) (hq : q ∈ is)
    (hx : ofIndices? p q = some x) {i : Index} (hi : i ∈ is) :
    (x.rename r).toRenaming (r i) = r (x.toRenaming i) := by
  rcases ofIndices?_eq_some hx with ⟨rfl, _⟩ | ⟨old, new, rfl, hpq, _, _⟩
  · rfl
  · have hold : old ∈ is := by
      rcases hpq with ⟨rfl, _⟩ | ⟨rfl, _⟩
      · exact hq
      · exact hp
    show Renaming.replace (r old) (r new) (r i) = r (Renaming.replace old new i)
    simp only [Renaming.replace, h.eq_iff hi hold]
    split
    · rfl
    · rfl

/-- An elimination brings no new indices. -/
theorem toRenaming_mem (hp : p ∈ is) (hq : q ∈ is) (hx : ofIndices? p q = some x) {i : Index}
    (hi : i ∈ is) : x.toRenaming i ∈ is := by
  rcases ofIndices?_eq_some hx with ⟨rfl, _⟩ | ⟨old, new, rfl, hpq, _, _⟩
  · exact hi
  · show Renaming.replace old new i ∈ is
    unfold Renaming.replace
    split
    · rcases hpq with ⟨_, rfl⟩ | ⟨_, rfl⟩
      · exact hp
      · exact hq
    · exact hi

end Elimination

namespace Tensor

variable {t : Tensor}

theorem mem_of_delta? {p q : Index} (h : t.delta? = some (p, q)) (ht : t.UsesOnly is) :
    p ∈ is ∧ q ∈ is := by
  obtain ⟨_, hupper, hlower, _⟩ := delta?_eq_some.mp h
  exact ⟨ht.upper p (by simp [hupper]), ht.lower q (by simp [hlower])⟩

theorem elimination?_relabel (h : Relabels r is) (ht : t.UsesOnly is) :
    (t.rename r).elimination? = t.elimination?.map (Elimination.rename r) := by
  rw [elimination?, delta?_rename, elimination?]
  cases hd : t.delta? with
  | none => rfl
  | some d =>
      obtain ⟨hp, hq⟩ := mem_of_delta? hd ht
      exact Elimination.ofIndices?_relabel h hp hq

end Tensor

/-! ## One step -/

namespace Expr

theorem rename_tensor_relabel (h : Relabels r is) {t : Tensor} (ht : t.IsCanonical)
    (huses : t.UsesOnly is) : (tensor t).rename r = tensor (t.rename r) := by
  refine eq_of_denote_eq (isCanonical_rename r _)
    (.tensor (Tensor.isCanonical_relabel h huses ht)) ?_
  rw [denote_rename]
  exact OperatorAlgebra.rename_gen r t

/-- A map of the factors that keeps their eliminations keeps the place of the first one. -/
theorem deltaStep?_map {f : Expr → Expr} {g : Elimination → Elimination} {es : List Expr}
    (h : ∀ e ∈ es, (f e).elimination? = e.elimination?.map g) :
    deltaStep? (es.map f) =
      (deltaStep? es).map fun s => ⟨f s.factor, g s.elimination, s.others.map f⟩ := by
  induction es with
  | nil => rfl
  | cons e es ih =>
      obtain ⟨he, hes⟩ := List.forall_mem_cons.mp h
      rw [List.map_cons, deltaStep?, he, deltaStep?, ih hes]
      cases e.elimination? with
      | some x => rfl
      | none => cases deltaStep? es <;> rfl

/-- The step with all its factors renamed. -/
def DeltaStep.rename (r : Renaming) (s : DeltaStep) : DeltaStep :=
  ⟨s.factor.rename r, s.elimination.rename r, s.others.map (Expr.rename r)⟩

/-- The factors of a product of tensors are numbers and canonical tensors with the indices of the
product. -/
theorem mem_factors_tree {v : Word} (huses : ∀ t ∈ v, t.UsesOnly is) {e : Expr}
    (he : e ∈ v.tree.factors) :
    (∃ c, e = const c) ∨ ∃ t : Tensor, t.IsCanonical ∧ t.UsesOnly is ∧ e = tensor t := by
  rw [Word.tree] at he
  cases hv : v.canonical? with
  | none =>
      rw [hv] at he
      exact .inl ⟨0, List.mem_singleton.mp he⟩
  | some x =>
      simp only [hv, Word.factors_scaled] at he
      rcases List.mem_append.mp he with hsign | hletter
      · left
        cases hs : x.1 with
        | plus =>
            rw [hs] at hsign
            cases hsign
        | minus =>
            rw [hs] at hsign
            exact ⟨-1, List.mem_singleton.mp hsign⟩
      · obtain ⟨t, ht, rfl⟩ := List.mem_map.mp hletter
        refine .inr ⟨t, ?_, fun i hi => Word.usesOnly_iff.mp huses i ?_, rfl⟩
        · exact Word.isCanonical_of_canonical? hv t ((Word.normal_perm _).mem_iff.mp ht)
        · rw [← Word.mem_indices_of_canonical? hv, ← Word.mem_indices_normal]
          exact Word.mem_indices.mpr ⟨t, ht, hi⟩

/-- The factors of a relabelled product are the relabelled factors. -/
theorem factors_tree_relabel (h : Relabels r is) {v : Word} (huses : ∀ t ∈ v, t.UsesOnly is) :
    (v.tree.rename r).factors = v.tree.factors.map (rename r) := by
  have hmem := fun e => mem_factors_tree huses (e := e)
  rw [Word.rename_tree, Word.tree, Word.canonical?_relabel h huses]
  rw [Word.tree] at hmem ⊢
  cases hv : v.canonical? with
  | none => exact (congrArg (fun e => [e]) (rename_const r 0)).symm
  | some x =>
      have hu : ∀ t ∈ x.2, t.UsesOnly is := by
        rw [Word.usesOnly_iff]
        intro i hi
        exact Word.usesOnly_iff.mp huses i ((Word.mem_indices_of_canonical? hv).mp hi)
      simp only [hv, Option.map_some, Word.factors_scaled, List.map_append] at hmem ⊢
      rw [Word.normal_relabel h hu]
      congr 1
      · cases x.1 with
        | plus => rfl
        | minus => exact (congrArg (fun e => [e]) (rename_const r (-1))).symm
      · rw [List.map_map, List.map_map]
        refine List.map_congr_left fun t ht => ?_
        rcases hmem (tensor t) (List.mem_append_right _ (List.mem_map_of_mem ht)) with
          ⟨_, hc⟩ | ⟨u, hcan, huses, htu⟩
        · cases hc
        · obtain rfl := tensor.inj htu
          exact (rename_tensor_relabel h hcan huses).symm

/-- The first delta of a relabelled product that can be eliminated stands where the first one of the
product stands. -/
theorem deltaStep?_tree_relabel (h : Relabels r is) {v : Word} (huses : ∀ t ∈ v, t.UsesOnly is) :
    deltaStep? (v.tree.rename r).factors = (deltaStep? v.tree.factors).map (.rename r) := by
  rw [factors_tree_relabel h huses]
  refine deltaStep?_map (g := .rename r) fun e he => ?_
  rcases mem_factors_tree huses he with ⟨c, rfl⟩ | ⟨t, hcan, ht, rfl⟩
  · rw [rename_const]
    rfl
  · rw [rename_tensor_relabel h hcan ht]
    exact Tensor.elimination?_relabel h ht

end Expr

/-! ## All steps -/

namespace Word

theorem of_mem_indices_tree {v : Word} {i : Index} (h : i ∈ v.tree.indices) : i ∈ v.indices := by
  rw [tree] at h
  cases hv : v.canonical? with
  | none =>
      rw [hv] at h
      cases h
  | some x =>
      simp only [hv, indices_scaled x.1.toRat_ne_zero] at h
      exact (mem_indices_of_canonical? hv).mp (mem_indices_normal.mp h)

/-- One step leads to a product again, and the step of the relabelled product to that product
relabelled. -/
theorem exists_tree_result (h : Relabels r is) {v : Word} (huses : ∀ t ∈ v, t.UsesOnly is)
    {x : Expr.DeltaStep} (hx : Expr.deltaStep? v.tree.factors = some x) :
    ∃ v' : Word, (∀ t ∈ v', t.UsesOnly is) ∧ x.result = v'.tree ∧
      (x.rename r).result = v'.tree.rename r := by
  obtain ⟨v₁, d, v₂, p, q, rfl, hd, hofx, hothers⟩ := Expr.deltaStep?_tree hx
  obtain ⟨hp, hq⟩ := Tensor.mem_of_delta? hd (huses d (by simp))
  have hrest : ∀ i ∈ indices (v₁ ++ v₂), i ∈ is := by
    refine usesOnly_iff.mp fun t ht => huses t ?_
    exact ((List.sublist_cons_self d v₂).append_left v₁).subset ht
  have hresult : x.result = tree ((v₁ ++ v₂).map (Tensor.rename x.elimination.toRenaming)) := by
    rw [Expr.DeltaStep.result, hothers, rename_tree]
  -- Both ways to the second result rename the other letters, and agree on their indices.
  refine ⟨_, ?_, hresult, ?_⟩
  · rw [usesOnly_iff, indices_rename]
    exact List.forall_mem_map.mpr fun i hi => Elimination.toRenaming_mem hp hq hofx (hrest i hi)
  · rw [← hresult, Expr.DeltaStep.result, Expr.DeltaStep.result, Expr.DeltaStep.rename,
      ← Expr.rename_product, hothers, Expr.rename_rename, Expr.rename_rename]
    refine Expr.rename_eq_of_eqOn fun i hi => ?_
    exact Elimination.toRenaming_relabel h hp hq hofx (hrest i (of_mem_indices_tree hi))

/-- However many deltas are eliminated, the run on the relabelled product ends with what the run on
the product ends with, relabelled. -/
theorem exists_tree_eliminate (h : Relabels r is) (fuel : Nat) {v : Word}
    (huses : ∀ t ∈ v, t.UsesOnly is) :
    ∃ v' : Word, (∀ t ∈ v', t.UsesOnly is) ∧ Expr.eliminate fuel v.tree = v'.tree ∧
      Expr.eliminate fuel (v.tree.rename r) = v'.tree.rename r := by
  -- Invariant of both runs: the second tree is the first one relabelled, and the labels in use are
  -- still members of the list.
  induction fuel generalizing v with
  | zero => exact ⟨v, huses, rfl, rfl⟩
  | succ fuel ih =>
      rw [Expr.eliminate, Expr.eliminate, Expr.deltaStep?_tree_relabel h huses]
      cases hx : Expr.deltaStep? v.tree.factors with
      | none => exact ⟨v, huses, rfl, rfl⟩
      | some x =>
          obtain ⟨v', huses', hresult, hrenamed⟩ := exists_tree_result h huses hx
          simp only [Option.map_some, hresult, hrenamed]
          exact ih huses'

/-- The deltas of a relabelled term are eliminated as those of the term, and no new indices
arise. -/
theorem exists_tree_reduceTerm (h : Relabels r is) {w : Word} (hw : w.IsCanonical)
    (huses : ∀ t ∈ w, t.UsesOnly is) :
    ∃ v : Word, (∀ t ∈ v, t.UsesOnly is) ∧ w.monomial.reduceTerm = v.tree ∧
      (w.monomial.rename r).reduceTerm = v.tree.rename r := by
  have hbound : (w.monomial.rename r).eliminationBound = w.monomial.eliminationBound := by
    rw [rename_monomial_relabel h hw huses, Expr.eliminationBound, leaves_monomial,
      Expr.eliminationBound, leaves_monomial, List.length_map]
  rw [Expr.reduceTerm, Expr.reduceTerm, hbound, ← tree_eq_monomial hw]
  exact exists_tree_eliminate h _ huses

end Word

/-! ## Numbering -/

/-- Whether a renaming gives the dummies of a list other numbers: external indices stay, each index
keeps its space and its kind, and no two indices are joined. -/
structure Renumbers (r : Renaming) (is : List Index) : Prop where
  external : ∀ i ∈ is, i.external = true → r i = i
  space : ∀ i ∈ is, (r i).space = i.space
  kind : ∀ i ∈ is, (r i).external = i.external
  apart : r.KeepsApart is

theorem Renumbers.mono {js : List Index} (h : Renumbers r is) (hsub : ∀ i ∈ js, i ∈ is) :
    Renumbers r js where
  external i hi := h.external i (hsub i hi)
  space i hi := h.space i (hsub i hi)
  kind i hi := h.kind i (hsub i hi)
  apart := h.apart.mono hsub

theorem Relabels.renumbers (h : Relabels r is) : Renumbers r is :=
  ⟨h.external, h.space, h.kind, h.keepsApart⟩

/-- Two lists that are relabelled one by one are renumbered together when no two indices are
joined. -/
theorem Renumbers.append {r : Renaming} {is js : List Index} (his : Relabels r is)
    (hjs : Relabels r js) (hnodup : ((is ++ js).map r).Nodup) : Renumbers r (is ++ js) where
  external i hi := (List.mem_append.mp hi).elim (his.external i) (hjs.external i)
  space i hi := (List.mem_append.mp hi).elim (his.space i) (hjs.space i)
  kind i hi := (List.mem_append.mp hi).elim (his.kind i) (hjs.kind i)
  apart _ hi _ hj heq := List.inj_on_of_nodup_map hnodup hi hj heq

/-- A pass over new numbers gives them the numbers that a pass over the old ones gives to those. -/
theorem numberFrom_map (h : Renumbers r is) {seen js : List Index} (hseen : ∀ i ∈ seen, i ∈ is)
    (hjs : ∀ i ∈ js, i ∈ is) (c : IndexContext) :
    numberFrom c (seen.map r) (js.map r) =
      (numberFrom c seen js).map fun x => (r x.1, x.2) := by
  -- The contexts of both passes are the same: they count spaces, not numbers.
  induction js generalizing c seen with
  | nil => rfl
  | cons j js ih =>
      obtain ⟨hj, hjs⟩ := List.forall_mem_cons.mp hjs
      have hmem : r j ∈ seen.map r ↔ j ∈ seen := by
        constructor
        · intro hm
          obtain ⟨k, hk, hkj⟩ := List.mem_map.mp hm
          exact h.apart k (hseen k hk) j hj hkj ▸ hk
        · exact List.mem_map_of_mem
      rw [List.map_cons, numberFrom, numberFrom]
      simp only [h.kind j hj, hmem, h.space j hj]
      split
      · exact ih hseen hjs c
      · rw [List.map_cons, ← ih (List.forall_mem_cons.mpr ⟨hj, hseen⟩) hjs, List.map_cons]

/-- Whatever number a dummy had, it gets the same one. -/
theorem numbering_map (h : Renumbers r is) {i : Index} (hi : i ∈ is) :
    numbering (is.map r) (r i) = numbering is i := by
  cases hkind : i.external with
  | true => rw [h.external i hi hkind, numbering_external hkind, numbering_external hkind]
  | false =>
      obtain ⟨j, hj⟩ := exists_mem_numberFrom (c := .empty) hi hkind List.not_mem_nil
      rw [numbering_of_mem hj]
      refine numbering_of_mem ?_
      rw [← List.map_nil (f := r), numberFrom_map h (List.forall_mem_nil _) fun _ hk => hk]
      exact List.mem_map.mpr ⟨_, hj, rfl⟩

namespace Word

theorem mem_flatMap_reading {w : Word} {i : Index} :
    i ∈ w.reading.flatMap Tensor.indices ↔ i ∈ w.indices :=
  mem_indices_of_perm w.reading_perm

/-- Terms that are read letter by letter alike, up to the numbers of their dummies, become the same
term. -/
theorem renumberTerm_eq_of_reading {v w : Word} (h : Renumbers r w.indices)
    (hv : v.reading = w.reading.map (Tensor.rename r)) :
    v.monomial.renumberTerm = w.monomial.renumberTerm := by
  have hreading : Renumbers r (w.reading.flatMap Tensor.indices) :=
    h.mono fun _ => mem_flatMap_reading.mp
  have hletters : v.reading.map (Tensor.rename v.renumbering) =
      w.reading.map (Tensor.rename w.renumbering) := by
    rw [renumbering, hv, flatMap_indices_rename, List.map_map]
    refine List.map_congr_left fun t ht => ?_
    rw [Function.comp_apply, Tensor.rename_rename]
    refine Tensor.rename_eq_of_eqOn fun i hi => ?_
    exact numbering_map hreading (List.mem_flatMap.mpr ⟨t, ht, hi⟩)
  rw [renumberTerm_monomial, hletters, renumberTerm_monomial]

end Word

/-! ## Reading -/

theorem Tensor.blindCmp_relabel (h : Relabels r is) {s t : Tensor} (hs : s.UsesOnly is)
    (ht : t.UsesOnly is) : (s.rename r).blindCmp (t.rename r) = s.blindCmp t := by
  have hindices : List.compareLex Index.blindCmp (s.rename r).indices (t.rename r).indices =
      List.compareLex Index.blindCmp s.indices t.indices := by
    rw [indices_rename, indices_rename]
    refine compareLex_map fun i hi j hj => ?_
    simp only [Index.blindCmp, compareLex, compareOn, h.space i (hs i hi), h.space j (ht j hj),
      h.kind i (hs i hi), h.kind j (ht j hj)]
  rw [blindCmp, hindices, blindCmp]
  rfl

namespace Word

variable {w : Word}

/-- Letters are read in the same order under new labels. -/
theorem reading_relabel (h : Relabels r is) (huses : ∀ t ∈ w, t.UsesOnly is) :
    reading (w.map (Tensor.rename r)) = w.reading.map (Tensor.rename r) := by
  have hcNumbers : ∀ t ∈ w.cNumbers, t.UsesOnly is := fun t ht =>
    huses t (List.mem_filter.mp ht).1
  rw [reading, cNumbers_rename, operators_rename, sortBy_map, ← List.map_append, reading]
  exact fun s hs t ht => Tensor.blindCmp_relabel h (hcNumbers s hs) (hcNumbers t ht)

/-- A renumbered term does not depend on its labels. -/
theorem renumberTerm_relabel (h : Relabels r is) (hw : w.IsCanonical)
    (huses : ∀ t ∈ w, t.UsesOnly is) :
    (w.monomial.rename r).renumberTerm = w.monomial.renumberTerm := by
  rw [rename_monomial_relabel h hw huses]
  exact renumberTerm_eq_of_reading (h.mono (usesOnly_iff.mp huses)).renumbers
    (reading_relabel h huses)

end Word

/-! ## Sums -/

namespace Expr

variable {e : Expr}

/-- What is done to the terms one by one may be done before or after relabelling, if that holds of
each term. -/
theorem mapTerms_relabel {f : Expr → Expr} {τ : Renaming}
    (hcan : ∀ m : Expr, m.IsMonomial → (f m).IsCanonical) (he : e.IsCanonical)
    (h : Relabels r e.indices)
    (hf : ∀ w : Word, w.IsCanonical → (∀ t ∈ w, t.UsesOnly e.indices) →
      f (w.monomial.rename r) = (f w.monomial).rename τ) :
    (e.rename r).mapTerms f = (e.mapTerms f).rename τ := by
  refine eq_of_denote_eq ((isLinear_mapTerms hcan).isCanonical (isCanonical_rename r e))
    (isCanonical_rename τ _) ?_
  rw [denote_mapTerms f (isCanonical_rename r e), eval_words_rename _ he h, denote_rename,
    denote_mapTerms f he]
  refine (Combination.eval_congr fun t ht => ?_).trans
    (Combination.map_eval (OperatorAlgebra.rename τ).toLinearMap _ _).symm
  have hw := e.isCanonical_canonicalWords_expand.2 t ht
  have huses := usesOnly_words he t ht
  rw [← Word.rename_monomial_relabel h hw huses, hf t.2 hw huses, denote_rename]
  rfl

/-- Deltas may be eliminated before or after relabelling. -/
theorem reduceDeltas_relabel (he : e.IsCanonical) (h : Relabels r e.indices) :
    (e.rename r).reduceDeltas = e.reduceDeltas.rename r := by
  refine mapTerms_relabel (fun _ hm => isCanonical_eliminate _ hm.isCanonical) he h ?_
  intro w hw huses
  obtain ⟨v, _, hreduced, hrenamed⟩ := Word.exists_tree_reduceTerm h hw huses
  rw [hrenamed, hreduced]

/-- A renumbered tree does not depend on its labels. -/
theorem renumberDummies_relabel (he : e.IsCanonical) (h : Relabels r e.indices) :
    (e.rename r).renumberDummies = e.renumberDummies := by
  have hterm : ∀ w : Word, w.IsCanonical → (∀ t ∈ w, t.UsesOnly e.indices) →
      (w.monomial.rename r).renumberTerm = w.monomial.renumberTerm.rename id := by
    intro w hw huses
    rw [Word.renumberTerm_relabel h hw huses, rename_id]
    exact (canonical_eq_self (isCanonical_rename _ _)).symm
  refine (mapTerms_relabel (f := renumberTerm) ?_ he h hterm).trans ?_
  · exact fun m _ => isCanonical_rename _ _
  rw [rename_id]
  exact canonical_eq_self (isCanonical_renumberDummies e)

/-- The elimination of deltas brings no new indices. -/
theorem mem_indices_reduceDeltas (he : e.IsCanonical) {i : Index}
    (hi : i ∈ e.reduceDeltas.indices) : i ∈ e.indices := by
  have hcan : ∀ t ∈ e.terms.map (fun t => (t.1, t.2.reduceTerm)), t.2.IsCanonical :=
    List.forall_mem_map.mpr fun t ht =>
      isCanonical_eliminate _ (isMonomial_of_mem_terms he ht).isCanonical
  obtain ⟨_, hterm, hi⟩ := of_mem_indices_weightedSum hcan hi
  rw [terms_eq_words he, List.map_map] at hterm
  obtain ⟨x, hx, rfl⟩ := List.mem_map.mp hterm
  obtain ⟨v, huses, hreduced, _⟩ := Word.exists_tree_reduceTerm (relabels_id e.indices)
    (e.isCanonical_canonicalWords_expand.2 x hx) (usesOnly_words he x hx)
  have hi : i ∈ x.2.monomial.reduceTerm.indices := hi
  rw [hreduced] at hi
  exact Word.usesOnly_iff.mp huses i (Word.of_mem_indices_tree hi)

end Expr

end SecondQuant
