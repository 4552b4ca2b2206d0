import SecondQuant.Proofs.Failures
import SecondQuant.Proofs.IndexSupport
import SecondQuant.Proofs.Numbering

/-!
# Deltas that make a table

Where every delta of a term has a dummy of its own below, the deltas form a table: each entry
replaces that dummy by the index above it.  One elimination leaves the other deltas as they are, so
whatever the order in which they are found, in the end the whole table has been applied to the rest
of the term.

* `Tensor.deltaOf`, `DeltaTable` — the delta of an entry, and tables whose entries do not get in
  each other's way.
* `DeltaTable.ofTable_eq` — an entry may be applied before the others.
* `deltaStep?_isSome_of_mem` — a delta that can be eliminated is found.
* `DeltaTable.eliminate` — **the deltas of a table are eliminated as one renaming**.
-/

namespace SecondQuant

/-- The delta of an entry of a table: the index that goes stands below. -/
def Tensor.deltaOf (x : Index × Index) : Tensor :=
  .cNumber deltaName [x.2] [x.1] .plain

/-- Whether the entries of a table replace different dummies, each by an index of its space that no
entry replaces. -/
structure DeltaTable (table : List (Index × Index)) : Prop where
  names : (table.map Prod.fst).Nodup
  images : ∀ x ∈ table, x.2 ∉ table.map Prod.fst
  dummy : ∀ x ∈ table, x.1.external = false
  space : ∀ x ∈ table, x.1.space = x.2.space

/-! ## One entry -/

namespace DeltaTable

variable {table t₁ t₂ : List (Index × Index)} {x : Index × Index}

theorem sublist {table' : List (Index × Index)} (h : DeltaTable table)
    (hsub : table'.Sublist table) : DeltaTable table' where
  names := (hsub.map Prod.fst).nodup h.names
  images x hx hm := h.images x (hsub.subset hx) ((hsub.map Prod.fst).subset hm)
  dummy x hx := h.dummy x (hsub.subset hx)
  space x hx := h.space x (hsub.subset hx)

theorem sublist_without : (t₁ ++ t₂).Sublist (t₁ ++ x :: t₂) :=
  (List.sublist_cons_self x t₂).append_left t₁

/-- Without one of its entries a table is still one. -/
theorem without (h : DeltaTable (t₁ ++ x :: t₂)) : DeltaTable (t₁ ++ t₂) :=
  h.sublist sublist_without

theorem fst_not_mem (h : DeltaTable (t₁ ++ x :: t₂)) : x.1 ∉ (t₁ ++ t₂).map Prod.fst := by
  have hnodup : (x.1 :: (t₁ ++ t₂).map Prod.fst).Nodup := by
    rw [← List.map_cons]
    exact (List.perm_middle.map Prod.fst).nodup_iff.mp h.names
  exact (List.nodup_cons.mp hnodup).1

theorem ofTable_of_not_mem {i : Index} (h : i ∉ table.map Prod.fst) :
    Renaming.ofTable table i = i := by
  by_contra hne
  exact h (List.mem_map_of_mem (mem_of_ofTable_ne hne))

/-- A table does what one of its entries does, and then what the others do. -/
theorem ofTable_eq (h : DeltaTable (t₁ ++ x :: t₂)) :
    Renaming.ofTable (t₁ ++ x :: t₂) =
      Renaming.ofTable (t₁ ++ t₂) ∘ Renaming.replace x.1 x.2 := by
  have hx : x ∈ t₁ ++ x :: t₂ := by simp
  have hold := ofTable_of_not_mem h.fst_not_mem
  have hnew : Renaming.ofTable (t₁ ++ t₂) x.2 = x.2 :=
    ofTable_of_not_mem fun hm => h.images x hx ((sublist_without.map Prod.fst).subset hm)
  funext i
  show _ = Renaming.ofTable (t₁ ++ t₂) (Renaming.replace x.1 x.2 i)
  by_cases hi : i = x.1
  · rw [Renaming.replace, if_pos hi, hnew, hi]
    exact ofTable_of_mem h.names hx
  · rw [Renaming.replace, if_neg hi]
    by_cases hm : i ∈ (t₁ ++ t₂).map Prod.fst
    · obtain ⟨y, hy, rfl⟩ := List.mem_map.mp hm
      rw [ofTable_of_mem h.without.names hy]
      exact ofTable_of_mem h.names (sublist_without.subset hy)
    · rw [ofTable_of_not_mem hm]
      refine ofTable_of_not_mem ?_
      simp only [List.map_append, List.mem_append, List.map_cons, List.mem_cons] at hm ⊢
      tauto

/-- The delta of an entry is eliminated by that entry. -/
theorem ofIndices?_eq (h : DeltaTable table) (hx : x ∈ table) :
    Elimination.ofIndices? x.2 x.1 = some (.replace x.1 x.2) := by
  have hne : x.2 ≠ x.1 := fun he => h.images x hx (he ▸ List.mem_map_of_mem hx)
  have hspace : x.1.space = x.2.space := h.space x hx
  simp [Elimination.ofIndices?, hne, hspace, h.dummy x hx]

end DeltaTable

/-! ## Finding a delta -/

/-- A product and its normal form have the same tree. -/
theorem Word.tree_normal (w : Word) : w.normal.tree = w.tree := by
  refine Expr.eq_of_denote_eq (isCanonical_tree _) (isCanonical_tree _) ?_
  rw [denote_tree, denote_tree, eval_normal OperatorAlgebra.lawful_gen.commute]

/-- Renaming the tree of a word that has been renamed. -/
theorem Word.rename_tree_map (s τ : Renaming) (w : Word) :
    (tree (w.map (Tensor.rename s))).rename τ = tree (w.map (Tensor.rename (τ ∘ s))) := by
  rw [rename_tree, List.map_map]
  exact congrArg tree (List.map_congr_left fun t _ => Tensor.rename_rename s τ t)

/-- A product vanishes when one of its tensors does. -/
theorem Word.canonical?_eq_none_iff {v : Word} :
    v.canonical? = none ↔ ∃ t ∈ v, t.canonical? = none := by
  induction v with
  | nil => simp [canonical?]
  | cons t v ih =>
      simp only [canonical?, List.exists_mem_cons_iff, ← ih]
      cases t.canonical? with
      | none => simp
      | some x => cases canonical? v <;> simp

theorem Word.mem_of_canonical? {v u : Word} {s : Sign} (h : v.canonical? = some (s, u))
    {t : Tensor} (ht : t ∈ v) (hplain : t.symmetry = .plain) : t ∈ u := by
  induction v generalizing s u with
  | nil => cases ht
  | cons d v ih =>
      obtain ⟨_, x, _, w, hd, hw, _, rfl⟩ := Word.canonical?_cons h
      rcases List.mem_cons.mp ht with rfl | ht
      · rw [Tensor.canonical?_of_plain hplain] at hd
        cases hd
        exact List.mem_cons_self
      · exact List.mem_cons_of_mem x (ih hw ht)

theorem Expr.deltaStep?_isSome_of_mem {es : List Expr} {e : Expr} (he : e ∈ es)
    (hx : e.elimination?.isSome) : (deltaStep? es).isSome := by
  induction es with
  | nil => cases he
  | cons d es ih =>
      rw [deltaStep?]
      cases hd : d.elimination? with
      | some x => rfl
      | none =>
          rcases List.mem_cons.mp he with rfl | he
          · simp [hd] at hx
          · simpa using ih he

/-- A product with a plain delta that can be eliminated has a next step, unless it vanishes. -/
theorem Word.canonical?_eq_none_of_deltaStep? {v : Word}
    (h : Expr.deltaStep? v.tree.factors = none) {t : Tensor} (ht : t ∈ v)
    (hplain : t.symmetry = .plain) (hx : t.elimination?.isSome) : v.canonical? = none := by
  cases hv : v.canonical? with
  | none => rfl
  | some y =>
      have hmem : t ∈ y.2.normal :=
        (normal_perm y.2).mem_iff.mpr (mem_of_canonical? (u := y.2) hv ht hplain)
      have hfactor : Expr.tensor t ∈ v.tree.factors := by
        rw [tree, hv, factors_scaled]
        exact List.mem_append_right _ (List.mem_map_of_mem hmem)
      have hstep := Expr.deltaStep?_isSome_of_mem hfactor hx
      simp [h] at hstep

/-! ## All entries -/

namespace DeltaTable

variable {table t₁ t₂ : List (Index × Index)} {x : Index × Index} {rest : Word} {s : Renaming}

/-- Whether a renaming keeps the indices of a table. -/
def Fixes (s : Renaming) (table : List (Index × Index)) : Prop :=
  ∀ x ∈ table, s x.1 = x.1 ∧ s x.2 = x.2

theorem rename_deltaOf (hs : Fixes s table) (hx : x ∈ table) :
    (Tensor.deltaOf x).rename s = Tensor.deltaOf x := by
  obtain ⟨hold, hnew⟩ := hs x hx
  simp [Tensor.deltaOf, Tensor.cNumber, Tensor.rename, hold, hnew]

/-- What an entry replaces is no index of the others. -/
theorem fixes_replace (h : DeltaTable (t₁ ++ x :: t₂)) (hs : Fixes s (t₁ ++ x :: t₂)) :
    Fixes (Renaming.replace x.1 x.2 ∘ s) (t₁ ++ t₂) := by
  intro y hy
  have hmem : y ∈ t₁ ++ x :: t₂ := sublist_without.subset hy
  have hx : x.1 ∈ (t₁ ++ x :: t₂).map Prod.fst := List.mem_map_of_mem (by simp)
  have hold : y.1 ≠ x.1 := fun he => h.fst_not_mem (he ▸ List.mem_map_of_mem hy)
  have hnew : y.2 ≠ x.1 := fun he => h.images y hmem (he ▸ hx)
  obtain ⟨hs₁, hs₂⟩ := hs y hmem
  simp [Renaming.replace, hs₁, hs₂, hold, hnew]

/-- The delta of a step is that of an entry, and after the step the other entries are left. -/
theorem exists_step (h : DeltaTable table) (hs : Fixes s table)
    (hrest : ∀ t ∈ rest, t.name ≠ deltaName) {y : Expr.DeltaStep}
    (hy : Expr.deltaStep?
      (Word.tree ((rest ++ table.map Tensor.deltaOf).map (Tensor.rename s))).factors = some y) :
    ∃ t₁ x t₂, table = t₁ ++ x :: t₂ ∧ y.result =
      Word.tree ((rest ++ (t₁ ++ t₂).map Tensor.deltaOf).map
        (Tensor.rename (Renaming.replace x.1 x.2 ∘ s))) := by
  obtain ⟨v₁, d, v₂, p, q, hv, hd, hofx, hothers⟩ := Expr.deltaStep?_tree hy
  obtain ⟨r₁, r', hsplit, rfl, hr'⟩ := List.map_eq_append_iff.mp hv
  obtain ⟨d, r₂, rfl, rfl, rfl⟩ := List.map_eq_cons_iff.mp hr'
  have hname : d.name = deltaName := (Tensor.delta?_eq_some.mp hd).1
  -- The rest of the term has no deltas, so the one that was found belongs to an entry.
  obtain ⟨ds, rfl, hds⟩ : ∃ ds, r₁ = rest ++ ds ∧ table.map Tensor.deltaOf = ds ++ d :: r₂ := by
    rcases List.append_eq_append_iff.mp hsplit with ⟨ds, hr₁, hds⟩ | ⟨ds, hr, hds⟩
    · exact ⟨ds, hr₁, hds⟩
    · cases ds with
      | nil => exact ⟨[], by simpa using hr.symm, by simpa using hds.symm⟩
      | cons d' ds =>
          obtain ⟨rfl, _⟩ := List.cons.inj hds
          exact absurd hname (hrest d (by simp [hr]))
  obtain ⟨t₁, t', rfl, rfl, ht'⟩ := List.map_eq_append_iff.mp hds
  obtain ⟨x, t₂, rfl, rfl, rfl⟩ := List.map_eq_cons_iff.mp ht'
  have hx : x ∈ t₁ ++ x :: t₂ := by simp
  rw [rename_deltaOf hs hx] at hd
  obtain ⟨rfl, rfl⟩ := Prod.mk.inj (Option.some.inj hd)
  rw [h.ofIndices?_eq hx] at hofx
  refine ⟨t₁, x, t₂, rfl, ?_⟩
  have hletters : rest ++ t₁.map Tensor.deltaOf ++ t₂.map Tensor.deltaOf =
      rest ++ (t₁ ++ t₂).map Tensor.deltaOf := by simp
  rw [Expr.DeltaStep.result, hothers, ← Option.some.inj hofx, ← List.map_append, hletters,
    Word.rename_tree_map]
  rfl

/-- Where a term vanishes the rest of it does, because deltas never do. -/
theorem tree_eq_zero
    (h : Word.canonical? ((rest ++ table.map Tensor.deltaOf).map (Tensor.rename s)) = none)
    (τ : Renaming) : Word.tree (rest.map (Tensor.rename (τ ∘ s))) = .zero := by
  obtain ⟨t, ht, hnone⟩ := Word.canonical?_eq_none_iff.mp h
  have hmem : t ∈ rest.map (Tensor.rename s) := by
    rw [List.map_append, List.mem_append] at ht
    refine ht.resolve_right fun hm => ?_
    obtain ⟨d, hd, rfl⟩ := List.mem_map.mp hm
    obtain ⟨x, _, rfl⟩ := List.mem_map.mp hd
    rw [Tensor.canonical?_of_plain rfl] at hnone
    cases hnone
  have hvanishes : Word.canonical? (rest.map (Tensor.rename s)) = none :=
    Word.canonical?_eq_none_iff.mpr ⟨t, hmem, hnone⟩
  have htree : Word.tree (rest.map (Tensor.rename s)) = .zero := by
    rw [Word.tree, hvanishes]
  rw [← Word.rename_tree_map, htree]
  exact Expr.rename_const τ 0

/-- **The deltas of a table are eliminated as one renaming.**  However they are found one after the
other, in the end the rest of the term is renamed by the whole table. -/
theorem eliminate (h : DeltaTable table) (hs : Fixes s table)
    (hrest : ∀ t ∈ rest, t.name ≠ deltaName) {fuel : Nat} (hfuel : table.length ≤ fuel) :
    Expr.eliminate fuel (Word.tree ((rest ++ table.map Tensor.deltaOf).map (Tensor.rename s))) =
      Word.tree (rest.map (Tensor.rename (Renaming.ofTable table ∘ s))) := by
  -- Each step drops one entry and applies it; the entries that are left are not touched by it.
  induction fuel generalizing table s with
  | zero =>
      obtain rfl := List.length_eq_zero_iff.mp (Nat.le_zero.mp hfuel)
      simp [Expr.eliminate]
  | succ fuel ih =>
      rw [Expr.eliminate]
      split
      · next hnone =>
          cases table with
          | nil => simp
          | cons x table =>
              have hx : x ∈ x :: table := List.mem_cons_self
              have hmem : Tensor.deltaOf x ∈
                  (rest ++ (x :: table).map Tensor.deltaOf).map (Tensor.rename s) := by
                refine List.mem_map.mpr ⟨Tensor.deltaOf x, by simp, rename_deltaOf hs hx⟩
              have hfound : (Tensor.deltaOf x).elimination? = some (.replace x.1 x.2) :=
                h.ofIndices?_eq hx
              have hvanishes :=
                Word.canonical?_eq_none_of_deltaStep? hnone hmem rfl (by simp [hfound])
              rw [tree_eq_zero hvanishes, Word.tree, hvanishes]
      · next y hy =>
          obtain ⟨t₁, x, t₂, rfl, hresult⟩ := h.exists_step hs hrest hy
          have hlength : (t₁ ++ t₂).length ≤ fuel := by
            simp only [List.length_append, List.length_cons] at hfuel ⊢
            omega
          rw [hresult, ih h.without (h.fixes_replace hs) hlength, h.ofTable_eq]
          rfl

/-- A term that consists of a rest and the deltas of a table is reduced to the rest, renamed by the
table. -/
theorem reduceTerm_eq (h : DeltaTable table) (hrest : ∀ t ∈ rest, t.name ≠ deltaName)
    (hw : (Word.normal (rest ++ table.map Tensor.deltaOf)).IsCanonical) :
    (Word.normal (rest ++ table.map Tensor.deltaOf)).monomial.reduceTerm =
      Word.tree (rest.map (Tensor.rename (Renaming.ofTable table))) := by
  have hfuel : table.length ≤ (Word.normal (rest ++ table.map Tensor.deltaOf)).length := by
    rw [(Word.normal_perm _).length_eq]
    simp
  have hid : Tensor.rename id = id := funext Tensor.rename_id
  have hrun := h.eliminate (s := id) (fun _ _ => ⟨rfl, rfl⟩) hrest hfuel
  rw [hid, List.map_id] at hrun
  rw [Expr.reduceTerm, Expr.eliminationBound, Word.leaves_monomial, ← Word.tree_eq_monomial hw,
    Word.tree_normal]
  exact hrun

end DeltaTable

end SecondQuant
