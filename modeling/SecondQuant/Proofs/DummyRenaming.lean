import Mathlib.Data.Finset.Card
import Mathlib.Data.Finset.Dedup
import SecondQuant.Proofs.IndexSupport

/-!
# Renumbering keeps terms apart

Renumbering renames the dummies of a term by a table: each dummy has one entry, the new name is a
dummy of the same space, and no two dummies get the same one.  Such a renaming can be taken back, so
terms that become equal, up to a factor, were equal up to that factor and the names of their
dummies.

* `RenamesDummies`, `NumbersDummies` — tables that rename the dummies of a list, and those that use
  the numbers from 1 on in each space.
* `numbersDummies_dummyTable` — the table of a pass numbers the dummies of its list.
* `RenamesDummies.undo_ofTable`, `RenamesDummies.compUndo_renames` — taking names back.
* `renumberDummies_faithful` — renumbering a single term, and two terms that become alike.
-/

namespace SecondQuant

/-! ## Tables -/

/-- Whether a table renames the dummies of a list and nothing else: each of them has one entry, the
new name is a dummy of the same space, and the new names differ. -/
structure RenamesDummies (is : List Index) (table : List (Index × Index)) : Prop where
  once : (table.map Prod.fst).Nodup
  mem_iff : ∀ i, (∃ j, (i, j) ∈ table) ↔ i ∈ is ∧ i.external = false
  keeps : ∀ i j, (i, j) ∈ table → j.space = i.space ∧ j.external = false
  apart : (table.map Prod.snd).Nodup

/-- The number of distinct dummies of a space in a list. -/
def dummyCount (is : List Index) (s : Space) : Nat :=
  (is.toFinset.filter fun i => i.space = s ∧ i.external = false).card

/-- Whether a table renames the dummies of each space to those numbered from 1 to their count. -/
structure NumbersDummies (is : List Index) (table : List (Index × Index)) : Prop
    extends RenamesDummies is table where
  onto : ∀ s n, (∃ i, (i, Index.dummy s n) ∈ table) ↔ 1 ≤ n ∧ n ≤ dummyCount is s

theorem NumbersDummies.congr {is js : List Index} {table : List (Index × Index)}
    (h : NumbersDummies is table) (hmem : ∀ i, i ∈ is ↔ i ∈ js) : NumbersDummies js table := by
  have hset : is.toFinset = js.toFinset := Finset.ext fun i => by simp [hmem]
  refine { h with mem_iff := fun i => ?_, onto := fun s n => ?_ }
  · rw [← hmem]
    exact h.mem_iff i
  · rw [dummyCount, ← hset]
    exact h.onto s n

namespace RenamesDummies

variable {is js : List Index} {table t₁ t₂ : List (Index × Index)}

/-- The renaming of the table has no effect on external indices. -/
theorem ofTable_external (h : RenamesDummies is table) {i : Index} (hi : i.external = true) :
    Renaming.ofTable table i = i := by
  by_contra hne
  have hdummy := ((h.mem_iff i).mp ⟨_, mem_of_ofTable_ne hne⟩).2
  simp [hi] at hdummy

theorem mem_ofTable (h : RenamesDummies is table) {i : Index} (hi : i ∈ is)
    (hdummy : i.external = false) : (i, Renaming.ofTable table i) ∈ table := by
  obtain ⟨j, hj⟩ := (h.mem_iff i).mpr ⟨hi, hdummy⟩
  rwa [ofTable_of_mem h.once hj]

/-- The renaming keeps the kind of every index of the list. -/
theorem external_ofTable (h : RenamesDummies is table) {i : Index} (hi : i ∈ is) :
    (Renaming.ofTable table i).external = i.external := by
  cases hdummy : i.external with
  | true => rw [h.ofTable_external hdummy, hdummy]
  | false => exact (h.keeps _ _ (h.mem_ofTable hi hdummy)).2

/-- New names that are equal belong to the same dummy. -/
theorem fst_eq_of_mem (h : RenamesDummies is table) {i j k : Index} (hi : (i, k) ∈ table)
    (hj : (j, k) ∈ table) : i = j :=
  (Prod.mk.inj (List.inj_on_of_nodup_map h.apart hi hj rfl)).1

theorem snd_eq_of_mem (h : RenamesDummies is table) {i j k : Index} (hj : (i, j) ∈ table)
    (hk : (i, k) ∈ table) : j = k :=
  (Prod.mk.inj (List.inj_on_of_nodup_map h.once hj hk rfl)).2

/-- The renaming never joins two indices of the list. -/
theorem keepsApart (h : RenamesDummies is table) : (Renaming.ofTable table).KeepsApart is := by
  intro i hi j hj heq
  have hkind : i.external = j.external := by
    rw [← h.external_ofTable hi, heq, h.external_ofTable hj]
  cases hdummy : i.external with
  | true =>
      rwa [h.ofTable_external hdummy, h.ofTable_external (hkind ▸ hdummy)] at heq
  | false =>
      have hj' := h.mem_ofTable hj (hkind ▸ hdummy)
      rw [← heq] at hj'
      exact h.fst_eq_of_mem (h.mem_ofTable hi hdummy) hj'

/-! ## Taking names back -/

/-- The renaming that gives the new names of a table back for the old ones. -/
def undo (table : List (Index × Index)) : Renaming :=
  .ofTable (table.map Prod.swap)

theorem undo_of_mem (h : RenamesDummies is table) {i j : Index} (hm : (i, j) ∈ table) :
    undo table j = i := by
  have honce : ((table.map Prod.swap).map Prod.fst).Nodup := by
    rw [List.map_map]
    exact h.apart
  exact ofTable_of_mem honce (List.mem_map.mpr ⟨(i, j), hm, rfl⟩)

theorem undo_external (h : RenamesDummies is table) {j : Index} (hj : j.external = true) :
    undo table j = j := by
  by_contra hne
  obtain ⟨⟨i, k⟩, hm, hswap⟩ := List.mem_map.mp (mem_of_ofTable_ne hne)
  obtain rfl : k = j := (Prod.mk.inj hswap).1
  simp [(h.keeps i k hm).2] at hj

theorem undo_ofTable (h : RenamesDummies is table) {i : Index} (hi : i ∈ is) :
    undo table (Renaming.ofTable table i) = i := by
  cases hdummy : i.external with
  | true => rw [h.ofTable_external hdummy, h.undo_external hdummy]
  | false => exact h.undo_of_mem (h.mem_ofTable hi hdummy)

/-- New names that are taken back to the same dummy are equal. -/
theorem undo_inj (h : RenamesDummies is table) {i j k l : Index} (hj : (i, j) ∈ table)
    (hl : (k, l) ∈ table) (heq : undo table j = undo table l) : j = l := by
  rw [h.undo_of_mem hj, h.undo_of_mem hl] at heq
  rw [← heq] at hl
  exact h.snd_eq_of_mem hj hl

/-- One table followed by the way back through another one. -/
def compUndo (t₁ t₂ : List (Index × Index)) : List (Index × Index) :=
  t₂.map fun x => (x.1, undo t₁ x.2)

section CompUndo

variable (h₁ : RenamesDummies is t₁) (h₂ : RenamesDummies js t₂)
  (hnames : ∀ i j, (i, j) ∈ t₂ → ∃ k, (k, j) ∈ t₁)

include h₁ hnames

/-- An entry goes forth and back through a name of both tables. -/
theorem exists_of_mem_compUndo {i k : Index} (hm : (i, k) ∈ compUndo t₁ t₂) :
    ∃ j, (i, j) ∈ t₂ ∧ (k, j) ∈ t₁ := by
  obtain ⟨⟨i', j⟩, hj, heq⟩ := List.mem_map.mp hm
  obtain ⟨rfl, rfl⟩ := Prod.mk.inj heq
  obtain ⟨k, hk⟩ := hnames i' j hj
  exact ⟨j, hj, by rwa [h₁.undo_of_mem hk]⟩

include h₂

theorem nodup_names_compUndo : ((compUndo t₁ t₂).map Prod.snd).Nodup := by
  have hmap : (compUndo t₁ t₂).map Prod.snd = (t₂.map Prod.snd).map (undo t₁) := by
    rw [compUndo, List.map_map, List.map_map]
    rfl
  rw [hmap]
  refine h₂.apart.map_on fun j hj l hl heq => ?_
  obtain ⟨⟨i, _⟩, hi, rfl⟩ := List.mem_map.mp hj
  obtain ⟨⟨k, _⟩, hk, rfl⟩ := List.mem_map.mp hl
  obtain ⟨_, hi⟩ := hnames _ _ hi
  obtain ⟨_, hk⟩ := hnames _ _ hk
  exact h₁.undo_inj hi hk heq

theorem compUndo_renames : RenamesDummies js (compUndo t₁ t₂) where
  once := by
    rw [compUndo, List.map_map]
    exact h₂.once
  mem_iff i := by
    rw [← h₂.mem_iff i]
    constructor
    · rintro ⟨k, hm⟩
      obtain ⟨j, hj, _⟩ := h₁.exists_of_mem_compUndo hnames hm
      exact ⟨j, hj⟩
    · rintro ⟨j, hj⟩
      exact ⟨_, List.mem_map.mpr ⟨(i, j), hj, rfl⟩⟩
  keeps i k hm := by
    obtain ⟨j, hj, hk⟩ := h₁.exists_of_mem_compUndo hnames hm
    refine ⟨?_, ((h₁.mem_iff k).mp ⟨j, hk⟩).2⟩
    rw [← (h₁.keeps k j hk).1, (h₂.keeps i j hj).1]
  apart := h₁.nodup_names_compUndo h₂ hnames

/-- The composed table is the renaming by one table and the way back through the other. -/
theorem ofTable_compUndo {i : Index} (hi : i ∈ js) :
    Renaming.ofTable (compUndo t₁ t₂) i = undo t₁ (Renaming.ofTable t₂ i) := by
  have h := h₁.compUndo_renames h₂ hnames
  cases hdummy : i.external with
  | true => rw [h.ofTable_external hdummy, h₂.ofTable_external hdummy, h₁.undo_external hdummy]
  | false =>
      exact ofTable_of_mem h.once (List.mem_map.mpr ⟨_, h₂.mem_ofTable hi hdummy, rfl⟩)

end CompUndo

/-- The dummies of a space are counted by their entries. -/
theorem dummyCount_eq (h : RenamesDummies is table) (s : Space) :
    dummyCount is s = table.countP fun x => x.1.space == s := by
  have hset : (is.toFinset.filter fun i => i.space = s ∧ i.external = false) =
      ((table.map Prod.fst).filter fun i => i.space == s).toFinset := by
    refine Finset.ext fun i => ?_
    have hentry : i ∈ table.map Prod.fst ↔ i ∈ is ∧ i.external = false := by
      rw [← h.mem_iff i]
      simp
    simp only [Finset.mem_filter, List.mem_toFinset, List.mem_filter, hentry, beq_iff_eq]
    tauto
  rw [dummyCount, hset, List.toFinset_card_of_nodup (h.once.filter _),
    ← List.countP_eq_length_filter, List.countP_map]
  rfl

end RenamesDummies

/-! ## The table of a pass -/

/-- A pass enters every dummy of the list that was not seen before. -/
theorem exists_mem_numberFrom {c : IndexContext} {seen is : List Index} {i : Index} (hi : i ∈ is)
    (hdummy : i.external = false) (hnew : i ∉ seen) : ∃ j, (i, j) ∈ numberFrom c seen is := by
  induction is generalizing c seen with
  | nil => cases hi
  | cons k is ih =>
      rw [numberFrom]
      by_cases hk : k.external = true ∨ k ∈ seen
      · rw [if_pos hk]
        rcases List.mem_cons.mp hi with rfl | hi
        · simp [hdummy, hnew] at hk
        · exact ih hi hnew
      · rw [if_neg hk]
        by_cases hik : i = k
        · rw [hik]
          exact ⟨_, List.mem_cons_self⟩
        · have hnew' : i ∉ k :: seen := by simp [hik, hnew]
          obtain ⟨j, hj⟩ := ih ((List.mem_cons.mp hi).resolve_left hik) hnew'
          exact ⟨j, List.mem_cons_of_mem _ hj⟩

/-- A pass gives a dummy a number of its space that has not been given yet. -/
theorem eq_dummy_of_mem_numberFrom {c : IndexContext} {seen is : List Index} {i j : Index}
    (h : (i, j) ∈ numberFrom c seen is) : ∃ n, j = .dummy i.space n ∧ c.drawn i.space < n := by
  induction is generalizing c seen with
  | nil => cases h
  | cons k is ih =>
      rw [numberFrom] at h
      by_cases hk : k.external = true ∨ k ∈ seen
      · rw [if_pos hk] at h
        exact ih h
      · rw [if_neg hk] at h
        rcases List.mem_cons.mp h with heq | h
        · obtain ⟨rfl, rfl⟩ := Prod.mk.inj heq
          exact ⟨_, rfl, Nat.lt_succ_self _⟩
        · obtain ⟨n, rfl, hn⟩ := ih h
          refine ⟨n, rfl, Nat.lt_of_le_of_lt ?_ hn⟩
          exact IndexContext.le_drawn_record.mpr (.inl (Nat.le_refl _))

/-- A pass gives no name twice. -/
theorem nodup_names_numberFrom (c : IndexContext) (seen is : List Index) :
    ((numberFrom c seen is).map Prod.snd).Nodup := by
  induction is generalizing c seen with
  | nil => exact List.nodup_nil
  | cons k is ih =>
      rw [numberFrom]
      by_cases hk : k.external = true ∨ k ∈ seen
      · rw [if_pos hk]
        exact ih c seen
      · rw [if_neg hk, List.map_cons]
        refine List.nodup_cons.mpr ⟨fun hm => ?_, ih _ _⟩
        obtain ⟨⟨i, j⟩, hij, heq⟩ := List.mem_map.mp hm
        -- A later name in this space has a number beyond the one given here.
        obtain ⟨n, hj, hn⟩ := eq_dummy_of_mem_numberFrom hij
        obtain ⟨hspace, hnumber⟩ : k.space = i.space ∧ c.drawn k.space + 1 = n := by
          simpa [hj, Index.dummy, eq_comm] using heq
        rw [← hspace, IndexContext.drawn_record_self] at hn
        omega

/-- In each space a pass gives the next numbers, as many as it enters dummies. -/
theorem mem_names_numberFrom {c : IndexContext} {seen is : List Index} {s : Space} {n : Nat} :
    (∃ i, (i, Index.dummy s n) ∈ numberFrom c seen is) ↔ c.drawn s < n ∧
      n ≤ c.drawn s + (numberFrom c seen is).countP fun x => x.1.space == s := by
  induction is generalizing c seen with
  | nil =>
      simp only [numberFrom, List.not_mem_nil, exists_false, List.countP_nil, false_iff]
      omega
  | cons k is ih =>
      rw [numberFrom]
      by_cases hk : k.external = true ∨ k ∈ seen
      · rw [if_pos hk]
        exact ih
      · have hhead : ∀ i, (i, Index.dummy s n) = (k, Index.dummy k.space (c.drawn k.space + 1)) ↔
            i = k ∧ s = k.space ∧ n = c.drawn k.space + 1 := fun i => by simp [Index.dummy]
        rw [if_neg hk, List.countP_cons]
        simp only [List.mem_cons, hhead, exists_or, ih]
        by_cases hs : s = k.space
        · subst hs
          simp
          omega
        · have hs' : ¬k.space = s := fun h => hs h.symm
          simp [hs, hs', IndexContext.drawn_record_of_ne c hs]

/-- The table of a pass over a list numbers the dummies of the list. -/
theorem numbersDummies_dummyTable (is : List Index) : NumbersDummies is (dummyTable is) := by
  rw [dummyTable_eq_numberFrom]
  have hrenames : RenamesDummies is (numberFrom .empty [] is) := by
    refine ⟨nodup_numberFrom _ _ _, fun i => ⟨?_, ?_⟩, fun i j hm => ?_,
      nodup_names_numberFrom _ _ _⟩
    · rintro ⟨j, hm⟩
      obtain ⟨hdummy, _, hi⟩ := of_mem_numberFrom hm
      exact ⟨hi, hdummy⟩
    · rintro ⟨hi, hdummy⟩
      exact exists_mem_numberFrom hi hdummy List.not_mem_nil
    · obtain ⟨n, rfl, _⟩ := eq_dummy_of_mem_numberFrom hm
      exact ⟨rfl, rfl⟩
  refine ⟨hrenames, fun s n => ?_⟩
  rw [mem_names_numberFrom, hrenames.dummyCount_eq, IndexContext.drawn_empty, Nat.zero_add]
  rfl

/-! ## Renumbering a term -/

/-- Renumbering a monomial renames its dummies. -/
theorem Word.renumberTerm_eq_rename (w : Word) :
    w.monomial.renumberTerm = w.monomial.rename w.renumbering := by
  have hdenote : (Expr.product (w.reading.map Expr.tensor)).denote = w.monomial.denote := by
    have hreading : (w.reading.map Expr.tensor).map Expr.denote =
        w.reading.map OperatorAlgebra.gen := by
      rw [List.map_map]
      rfl
    rw [Expr.denote_product, hreading, ← Word.eval, ← denote_tree, denote_tree_reading, denote_tree,
      Expr.denote, eval_monomial]
  rw [Expr.renumberTerm, readingOrder_monomial, flatMap_indices]
  exact Expr.rename_congr hdenote _

namespace Expr.IsSingleTerm

variable {e : Expr}

/-- Renumbering a single term renames its dummies by a table that numbers them. -/
theorem exists_renumberDummies_eq (h : e.IsSingleTerm) : ∃ table,
    NumbersDummies e.indices table ∧ e.renumberDummies = e.rename (.ofTable table) := by
  obtain ⟨c, w, hc, hw, rfl⟩ := isSingleTerm_iff.mp h
  refine ⟨dummyTable w.reading.indices, ?_, ?_⟩
  · refine (numbersDummies_dummyTable _).congr fun i => ?_
    rw [Word.indices_scaled hc]
    exact Word.mem_indices_of_perm w.reading_perm
  · have hsmul : (scaled c w.monomial).renumberDummies = c • w.monomial.renumberTerm := by
      rw [renumberDummies, Word.terms_scaled hc]
      rfl
    rw [hsmul, Word.renumberTerm_eq_rename, scaled_eq_smul hc hw, rename_smul]
    rfl

/-- The dummies of a renamed term are the new names. -/
theorem mem_indices_ofTable (h : e.IsSingleTerm) {table : List (Index × Index)}
    (ht : RenamesDummies e.indices table) {j : Index} :
    j ∈ (e.rename (.ofTable table)).indices ∧ j.external = false ↔ ∃ i, (i, j) ∈ table := by
  rw [h.mem_indices_rename ht.keepsApart]
  constructor
  · rintro ⟨⟨i, hi, rfl⟩, hdummy⟩
    rw [ht.external_ofTable hi] at hdummy
    exact ⟨i, ht.mem_ofTable hi hdummy⟩
  · rintro ⟨i, hm⟩
    exact ⟨⟨i, ((ht.mem_iff i).mp ⟨j, hm⟩).1, ofTable_of_mem ht.once hm⟩, (ht.keeps i j hm).2⟩

/-- Terms that renumbering makes equal up to a factor are equal up to that factor and the names of
their dummies. -/
theorem exists_eq_rename {e₁ e₂ : Expr} {k : ℚ} (h₁ : e₁.IsSingleTerm) (h₂ : e₂.IsSingleTerm)
    (hk : k ≠ 0) (heq : e₁.renumberDummies = k • e₂.renumberDummies) : ∃ table,
      RenamesDummies e₂.indices table ∧ e₁ = k • e₂.rename (.ofTable table) := by
  obtain ⟨t₁, ht₁, hren₁⟩ := h₁.exists_renumberDummies_eq
  obtain ⟨t₂, ht₂, hren₂⟩ := h₂.exists_renumberDummies_eq
  replace ht₁ := ht₁.toRenamesDummies
  replace ht₂ := ht₂.toRenamesDummies
  rw [hren₁, hren₂] at heq
  -- A factor does not change which indices occur, so both passes gave out the same names.
  have hsame : (e₁.rename (.ofTable t₁)).indices = (e₂.rename (.ofTable t₂)).indices := by
    rw [heq, (h₂.rename ht₂.keepsApart).indices_smul hk]
  have hnames : ∀ i j, (i, j) ∈ t₂ → ∃ l, (l, j) ∈ t₁ := by
    intro i j hm
    rw [← h₁.mem_indices_ofTable ht₁, hsame, h₂.mem_indices_ofTable ht₂]
    exact ⟨i, hm⟩
  have hcomp : e₂.rename (RenamesDummies.undo t₁ ∘ Renaming.ofTable t₂) =
      e₂.rename (.ofTable (RenamesDummies.compUndo t₁ t₂)) :=
    rename_eq_of_eqOn fun i hi => (ht₁.ofTable_compUndo ht₂ hnames hi).symm
  refine ⟨_, ht₁.compUndo_renames ht₂ hnames, ?_⟩
  calc e₁ = e₁.rename (RenamesDummies.undo t₁ ∘ Renaming.ofTable t₁) :=
        (rename_eq_self h₁.1 fun i hi => ht₁.undo_ofTable hi).symm
    _ = (k • e₂.rename (.ofTable t₂)).rename (RenamesDummies.undo t₁) := by
        rw [← heq, rename_rename]
    _ = k • e₂.rename (RenamesDummies.undo t₁ ∘ Renaming.ofTable t₂) := by
        rw [rename_smul, rename_rename]
    _ = k • e₂.rename (.ofTable (RenamesDummies.compUndo t₁ t₂)) := by rw [hcomp]

end Expr.IsSingleTerm

/-- **Renumbering keeps terms apart.**  A single term is renumbered by renaming its dummies: each
keeps its space, no two are joined, those of a space get the numbers from 1 to their count, and
external indices stay.  So two terms that become equal up to a factor were equal up to that factor
and the names of their dummies. -/
theorem renumberDummies_faithful :
    (∀ e : Expr, e.IsSingleTerm → ∃ table, NumbersDummies e.indices table ∧
      (∀ i : Index, i.external = true → Renaming.ofTable table i = i) ∧
      e.renumberDummies = e.rename (.ofTable table)) ∧
    ∀ (e₁ e₂ : Expr) (k : ℚ), e₁.IsSingleTerm → e₂.IsSingleTerm → k ≠ 0 →
      e₁.renumberDummies = k • e₂.renumberDummies → ∃ table, RenamesDummies e₂.indices table ∧
        (∀ i : Index, i.external = true → Renaming.ofTable table i = i) ∧
        e₁ = k • e₂.rename (.ofTable table) := by
  constructor
  · intro e h
    obtain ⟨table, ht, heq⟩ := h.exists_renumberDummies_eq
    exact ⟨table, ht, fun _ => ht.ofTable_external, heq⟩
  · intro e₁ e₂ k h₁ h₂ hk heq
    obtain ⟨table, ht, heq⟩ := h₁.exists_eq_rename h₂ hk heq
    exact ⟨table, ht, fun _ => ht.ofTable_external, heq⟩

/-- Two c-numbers that share the greater of two dummies, and an external index that looks like one
of them. -/
def sharesGreater : Expr :=
  .prod [.tensor (.cNumber "f" [.dummy .general 3] [.free .general 1] .plain),
    .tensor (.cNumber "v" [.dummy .general 1, .dummy .general 3] [] .antisymmetric)]

/-- Two c-numbers that share the smaller of two dummies. -/
def sharesSmaller : Expr :=
  .prod [.tensor (.cNumber "f" [.dummy .general 3] [.free .general 1] .plain),
    .tensor (.cNumber "v" [.dummy .general 3, .dummy .general 7] [] .antisymmetric)]

/-- They become equal up to a sign, and are the same term up to that sign and the names of their
dummies. -/
theorem renumberDummies_sharesGreater :
    sharesGreater.renumberDummies = (-1 : ℚ) • sharesSmaller.renumberDummies ∧
      ∃ table, RenamesDummies sharesSmaller.indices table ∧
        (∀ i : Index, i.external = true → Renaming.ofTable table i = i) ∧
        sharesGreater = (-1 : ℚ) • sharesSmaller.rename (.ofTable table) := by
  have hsingle : ∀ e ∈ [sharesGreater, sharesSmaller], e.IsSingleTerm := by
    intro e he
    have hcan : e.canonical = e ∧ e.terms = [(1, e)] := by
      fin_cases he <;> exact ⟨by decide +kernel, by decide +kernel⟩
    exact ⟨Expr.canonical_eq_self_iff.mp hcan.1, _, hcan.2⟩
  have heq : sharesGreater.renumberDummies = (-1 : ℚ) • sharesSmaller.renumberDummies := by
    decide +kernel
  exact ⟨heq, renumberDummies_faithful.2 _ _ _ (hsingle _ (by simp)) (hsingle _ (by simp))
    (by norm_num) heq⟩

end SecondQuant
