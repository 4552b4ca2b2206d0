import SecondQuant.Proofs.Linearity
import SecondQuant.Proofs.Numbering
import SecondQuant.Proofs.Substitution

/-!
# Renumbering twice

Renumbering reads the factors of a term in an order that looks at names, symmetries and spaces.  New
numbers can change that order only between tensors of the same name and symmetry.  If they do not, a
second pass finds every dummy numbered as it would number it itself; if they do, it may start all
over again.

* `Word.reading`, `Word.renumberTerm_monomial` — the reading order of a word, and one pass over it.
* `NumberedAfter.canonical` — bringing tensors into canonical form leaves their dummies numbered.
* `Expr.IsNumbered`, `Expr.renumberTerm_eq_self` — terms that a pass leaves alone.
* `Expr.KeepsReadingOrder`, `Word.keepsReadingOrder_of_distinct` — terms that are read in the same
  order afterwards.
* `renumberDummies_idempotent`, `renumberDummies_sharedTwice` — when the second pass changes
  nothing, and a term that it changes.
-/

namespace SecondQuant

/-! ## Comparisons without numbers -/

instance : Std.TransCmp Index.blindCmp :=
  inferInstanceAs (Std.TransCmp (compareLex (compareOn Index.space) (compareOn Index.external)))

/-- Compares two tensors by the spaces and kinds of their indices. -/
def Tensor.blindIndexCmp (s t : Tensor) : Ordering :=
  List.compareLex Index.blindCmp s.indices t.indices

instance : Std.TransCmp Tensor.blindIndexCmp where
  eq_swap := by
    intro s t
    have h : List.compareLex Index.blindCmp s.indices t.indices =
        (List.compareLex Index.blindCmp t.indices s.indices).swap := Std.OrientedCmp.eq_swap
    exact h
  isLE_trans := by
    intro s t u hst htu
    have h : (List.compareLex Index.blindCmp s.indices u.indices).isLE :=
      Std.TransCmp.isLE_trans hst htu
    exact h

instance : Std.TransCmp Tensor.blindCmp :=
  inferInstanceAs <| Std.TransCmp <|
    compareLex (compareLex (compareOn Tensor.name) (compareOn Tensor.symmetry)) Tensor.blindIndexCmp

/-! ## Reading a word -/

namespace Word

/-- The letters of a word in reading order. -/
def reading (w : Word) : Word :=
  sortBy Tensor.blindCmp w.cNumbers ++ w.operators

theorem insertBy_map_tensor (t : Tensor) (w : Word) :
    insertBy Expr.blindCmp (.tensor t) (w.map .tensor) =
      (insertBy Tensor.blindCmp t w).map .tensor := by
  induction w with
  | nil => rfl
  | cons s w ih =>
      rw [List.map_cons, insertBy, insertBy, ih]
      show (if (t.blindCmp s).isLE then _ else _) = _
      by_cases h : (t.blindCmp s).isLE = true
      · simp [h]
      · simp [h]

theorem sortBy_map_tensor (w : Word) :
    sortBy Expr.blindCmp (w.map .tensor) = (sortBy Tensor.blindCmp w).map .tensor := by
  induction w with
  | nil => rfl
  | cons t w ih => rw [List.map_cons, sortBy, ih, insertBy_map_tensor, sortBy]

theorem readingOrder_monomial (w : Word) :
    w.monomial.readingOrder = w.reading.map .tensor := by
  rw [Expr.readingOrder, factors_monomial, List.filter_map, List.filter_map, reading,
    List.map_append, ← sortBy_map_tensor]
  rfl

theorem flatMap_indices (w : Word) :
    (w.map Expr.tensor).flatMap Expr.indices = w.flatMap Tensor.indices := by
  rw [List.flatMap_map]
  refine List.flatMap_congr fun t _ => ?_
  simp [Expr.indices, Expr.leaves]

theorem cNumbers_append {cs os : Word} (hc : ∀ t ∈ cs, t.isOperator = false)
    (ho : ∀ t ∈ os, t.isOperator = true) : cNumbers (cs ++ os) = cs := by
  rw [cNumbers, List.filter_append, List.filter_eq_self.mpr fun t ht => by simp [hc t ht],
    List.filter_eq_nil_iff.mpr fun t ht => by simp [ho t ht], List.append_nil]

theorem operators_append {cs os : Word} (hc : ∀ t ∈ cs, t.isOperator = false)
    (ho : ∀ t ∈ os, t.isOperator = true) : operators (cs ++ os) = os := by
  rw [operators, List.filter_append, List.filter_eq_nil_iff.mpr fun t ht => by simp [hc t ht],
    List.filter_eq_self.mpr ho, List.nil_append]

/-- The reading order only moves c-numbers, so it keeps the normal form. -/
theorem normal_reading (w : Word) : w.reading.normal = w.normal := by
  have hc : ∀ t ∈ sortBy Tensor.blindCmp w.cNumbers, t.isOperator = false := fun t ht =>
    isOperator_of_mem_cNumbers (mem_sortBy.mp ht)
  have ho : ∀ t ∈ w.operators, t.isOperator = true := fun t => isOperator_of_mem_operators
  refine normal_congr ?_ ?_
  · rw [reading, cNumbers_append hc ho]
    exact sortBy_perm _ _
  · rw [reading, operators_append hc ho]

theorem denote_tree_reading (w : Word) : w.reading.tree.denote = w.tree.denote := by
  have hgen := OperatorAlgebra.lawful_gen.commute
  rw [denote_tree, denote_tree, ← eval_normal hgen, normal_reading, eval_normal hgen]

/-- A canonical word is its own tree. -/
theorem tree_reading {w : Word} (hw : w.IsCanonical) : w.reading.tree = w.monomial := by
  refine Expr.eq_of_denote_eq (isCanonical_tree _) (Expr.isMonomial_monomial hw).isCanonical ?_
  rw [denote_tree_reading, denote_tree, Expr.denote, eval_monomial]

/-- The renaming that numbers the dummies of a word in reading order. -/
def renumbering (w : Word) : Renaming :=
  numbering (w.reading.flatMap Tensor.indices)

/-- Renumbering a word renames its letters in reading order. -/
theorem renumberTerm_monomial (w : Word) :
    w.monomial.renumberTerm = Word.tree (w.reading.map (Tensor.rename w.renumbering)) := by
  rw [Expr.renumberTerm, readingOrder_monomial, flatMap_indices, ← Expr.rename_prod]
  refine Expr.rename_congr ?_ _
  rw [Expr.denote_product, Expr.denote, Expr.eval_prod]
  rfl

end Word

namespace Expr

/-- Whether the dummies of a term are numbered by first appearance in its reading order. -/
def IsNumbered (m : Expr) : Prop :=
  Numbered (m.readingOrder.flatMap indices)

/-- A term that is numbered already is left alone. -/
theorem renumberTerm_eq_self {m : Expr} (hm : m.IsMonomial) (h : m.IsNumbered) :
    m.renumberTerm = m := by
  obtain ⟨w, hw, rfl⟩ := isMonomial_iff.mp hm
  have hid : Tensor.rename id = id := funext Tensor.rename_id
  rw [IsNumbered, Word.readingOrder_monomial, Word.flatMap_indices] at h
  rw [Word.renumberTerm_monomial, Word.renumbering, numbering_eq_id h, hid, List.map_id,
    Word.tree_reading hw]

end Expr

/-! ## Canonical letters -/

theorem Tensor.mem_indices_sorted {t : Tensor} {i : Index} :
    i ∈ t.sorted.indices ↔ i ∈ t.indices := by
  simp [indices, sorted]

theorem NumberedAfter.sorted {seen : List Index} {t : Tensor} (h : NumberedAfter seen t.indices) :
    NumberedAfter seen t.sorted.indices := by
  obtain ⟨hupper, hlower⟩ := numberedAfter_append.mp h
  refine numberedAfter_append.mpr ⟨hupper.sortBy, hlower.sortBy.mono ?_⟩
  intro s n hm
  simpa [Tensor.sorted] using hm

/-- Bringing tensors into canonical form leaves the list of their indices numbered. -/
theorem NumberedAfter.canonical {seen : List Index} {v u : Word} {s : Sign}
    (hv : NumberedAfter seen (v.flatMap Tensor.indices)) (h : v.canonical? = some (s, u)) :
    NumberedAfter seen (u.flatMap Tensor.indices) := by
  induction v generalizing seen u s with
  | nil =>
      rw [Word.canonical?_nil h]
      exact hv
  | cons t v ih =>
      obtain ⟨_, x, _, w, ht, hw, _, rfl⟩ := Word.canonical?_cons h
      rw [List.flatMap_cons] at hv ⊢
      obtain ⟨hhead, htail⟩ := numberedAfter_append.mp hv
      rcases Tensor.canonical?_eq_some ht with ⟨_, rfl⟩ | ⟨_, rfl⟩
      · exact numberedAfter_append.mpr ⟨hhead, ih htail hw⟩
      · refine numberedAfter_append.mpr ⟨hhead.sorted, (ih htail hw).mono ?_⟩
        intro s n hm
        simpa [Tensor.mem_indices_sorted] using hm

namespace Word

theorem flatMap_indices_rename (σ : Renaming) (w : Word) :
    (w.map (Tensor.rename σ)).flatMap Tensor.indices = (w.flatMap Tensor.indices).map σ := by
  rw [List.flatMap_map, List.map_flatMap]
  refine List.flatMap_congr fun t _ => ?_
  simp [Tensor.indices, Tensor.rename]

/-- Renumbered letters are numbered in the order in which the letters were read. -/
theorem numbered_canonical {w u : Word} {s : Sign}
    (h : canonical? (w.reading.map (Tensor.rename w.renumbering)) = some (s, u)) :
    Numbered (u.flatMap Tensor.indices) := by
  refine NumberedAfter.canonical ?_ h
  rw [flatMap_indices_rename]
  exact numbered_map_numbering _

/-- The terms of the tree of a product: its letters in normal form, unless it vanishes. -/
theorem mem_terms_tree {v : Word} {t : Term} (h : t ∈ v.tree.terms) :
    ∃ s u, v.canonical? = some (s, u) ∧ t = (s.toRat, u.normal.monomial) := by
  rw [tree] at h
  cases hv : v.canonical? with
  | none =>
      rw [hv] at h
      cases h
  | some x =>
      rw [hv, terms_scaled x.1.toRat_ne_zero] at h
      exact ⟨x.1, x.2, rfl, List.mem_singleton.mp h⟩

end Word

/-! ## Terms that keep their reading order -/

namespace Expr

/-- The renaming that numbers the dummies of a term in reading order. -/
def renumbering (m : Expr) : Renaming :=
  numbering (m.readingOrder.flatMap indices)

/-- Whether the factors of a term are read in the same order after renumbering: they are then the
renamed factors, up to signs. -/
def KeepsReadingOrder (m : Expr) : Prop :=
  ∀ t ∈ m.renumberTerm.terms,
    t.2.readingOrder = m.readingOrder.map fun f => (f.rename m.renumbering).splitCoefficient.2

theorem splitCoefficient_rename_tensor {σ : Renaming} {t u : Tensor} {s : Sign}
    (h : (t.rename σ).canonical? = some (s, u)) :
    ((tensor t).rename σ).splitCoefficient.2 = tensor u := by
  have hprod : (tensor t).rename σ = (prod (List.map tensor [t])).rename σ := by
    refine rename_congr ?_ σ
    simp [denote, eval_prod]
  have htree : Word.canonical? [t.rename σ] = some (s, [u]) := by
    rw [Word.canonical?, h]
    simp [Word.canonical?]
  rw [hprod, rename_prod, List.map_singleton, Word.tree, htree]
  cases s with
  | plus =>
      show (scaled 1 (tensor u)).splitCoefficient.2 = tensor u
      rw [one_scaled]
      rfl
  | minus => rfl

theorem map_splitCoefficient_rename {σ : Renaming} {w u : Word} {s : Sign}
    (h : Word.canonical? (w.map (Tensor.rename σ)) = some (s, u)) :
    (w.map tensor).map (fun f => (f.rename σ).splitCoefficient.2) = u.map tensor := by
  induction w generalizing s u with
  | nil =>
      rw [Word.canonical?_nil h]
      rfl
  | cons t w ih =>
      obtain ⟨_, x, _, v, ht, hw, _, rfl⟩ := Word.canonical?_cons h
      rw [List.map_cons, List.map_cons, List.map_cons, ih hw, splitCoefficient_rename_tensor ht]

end Expr

namespace Word

theorem renumbering_monomial (w : Word) : w.monomial.renumbering = w.renumbering := by
  rw [Expr.renumbering, readingOrder_monomial, flatMap_indices, renumbering]

/-- A term keeps its reading order exactly when its renumbered letters, brought into normal form,
are read in the order in which they were numbered. -/
theorem keepsReadingOrder_monomial {w : Word} :
    w.monomial.KeepsReadingOrder ↔
      ∀ s u, canonical? (w.reading.map (Tensor.rename w.renumbering)) = some (s, u) →
        u.normal.reading = u := by
  have hinj : Function.Injective (List.map Expr.tensor) :=
    List.map_injective_iff.mpr fun _ _ => Expr.tensor.inj
  unfold Expr.KeepsReadingOrder
  rw [renumberTerm_monomial, renumbering_monomial, readingOrder_monomial]
  constructor
  · intro h s u hu
    have ht : (s.toRat, u.normal.monomial) ∈
        (tree (w.reading.map (Tensor.rename w.renumbering))).terms := by
      rw [tree, hu, terms_scaled s.toRat_ne_zero]
      exact List.mem_cons_self
    have heq := h _ ht
    rw [Expr.map_splitCoefficient_rename hu, readingOrder_monomial] at heq
    exact hinj heq
  · intro h t ht
    obtain ⟨s, u, hu, rfl⟩ := mem_terms_tree ht
    rw [Expr.map_splitCoefficient_rename hu, readingOrder_monomial, h s u hu]

end Word

/-- One pass over a term that keeps its reading order numbers it. -/
theorem Expr.isNumbered_of_keepsReadingOrder {m : Expr} (hm : m.IsMonomial)
    (h : m.KeepsReadingOrder) : ∀ t ∈ m.renumberTerm.terms, t.2.IsNumbered := by
  obtain ⟨w, _, rfl⟩ := isMonomial_iff.mp hm
  intro t ht
  rw [Word.renumberTerm_monomial] at ht
  obtain ⟨s, u, hu, rfl⟩ := Word.mem_terms_tree ht
  rw [IsNumbered, Word.readingOrder_monomial, Word.flatMap_indices,
    Word.keepsReadingOrder_monomial.mp h s u hu]
  exact Word.numbered_canonical hu

/-! ## Sums -/

namespace Expr

/-- The terms of a collected list have what all terms of the list have. -/
theorem of_mem_terms_collect {ts : List Term} (h : ∀ t ∈ ts, t.2.IsMonomial) {P : Expr → Prop}
    (hP : ∀ t ∈ ts, P t.2) : ∀ s ∈ (collect ts).terms, P s.2 := by
  obtain ⟨p, hp, rfl⟩ := exists_words h
  have hwords : ∀ x ∈ p, P x.2.monomial := fun x hx => hP _ (List.mem_map_of_mem hx)
  rw [collect_monomials, WordSum.terms_toExpr (WordSum.built_collect hp)]
  refine List.forall_mem_map.mpr ?_
  exact Combination.mem_collect (P := fun w : Word => P w.monomial) hwords

/-- The terms of a weighted sum have what all terms of its members have. -/
theorem of_mem_terms_weightedSum {ts : List Term} (h : ∀ t ∈ ts, t.2.IsCanonical)
    {P : Expr → Prop} (hP : ∀ t ∈ ts, ∀ s ∈ t.2.terms, P s.2) :
    ∀ s ∈ (weightedSum ts).terms, P s.2 := by
  have hmember : ∀ {Q : Expr → Prop}, (∀ t ∈ ts, ∀ s ∈ t.2.terms, Q s.2) →
      ∀ s ∈ ts.flatMap weightedTerms, Q s.2 := by
    intro Q hQ s hs
    obtain ⟨t, ht, hs⟩ := List.mem_flatMap.mp hs
    obtain ⟨x, hx, rfl⟩ := List.mem_map.mp hs
    exact hQ t ht x hx
  refine of_mem_terms_collect (hmember fun t ht s hs => ?_) (hmember hP)
  exact isMonomial_of_mem_terms (h t ht) hs

/-- An operation on terms that changes none of the terms of a tree does not change the tree. -/
theorem mapTerms_eq_self {f : Expr → Expr} {e : Expr} (he : e.IsCanonical)
    (h : ∀ t ∈ e.terms, f t.2 = t.2) : e.mapTerms f = e := by
  have hterms : (e.terms.map fun t => (t.1, f t.2)) = e.terms := by
    refine (List.map_congr_left fun t ht => ?_).trans (List.map_id _)
    rw [h t ht]
    rfl
  rw [mapTerms, hterms]
  refine eq_of_denote_eq (isCanonical_weightedSum ?_) he ?_
  · exact fun t ht => (isMonomial_of_mem_terms he ht).isCanonical
  · rw [denote_weightedSum]
    exact eval_terms OperatorAlgebra.gen e

end Expr

/-! ## Terms without similar c-numbers -/

/-- What renumbering never changes of a tensor. -/
def Tensor.kind (t : Tensor) : String × Symmetry × Bool :=
  (t.name, t.symmetry, t.isOperator)

/-- Whether the name and the symmetry of one kind come before those of another. -/
def KindLt (x y : String × Symmetry × Bool) : Prop :=
  (compare x.1 y.1).then (compare x.2.1 y.2.1) = .lt

theorem Tensor.blindCmp_of_kindLt {s t : Tensor} (h : KindLt s.kind t.kind) :
    s.blindCmp t = .lt := by
  have h : (compare s.name t.name).then (compare s.symmetry t.symmetry) = .lt := h
  rw [blindCmp, h]
  rfl

/-- Tensors that are in order and differ in name or symmetry are in order of their kinds. -/
theorem Tensor.kindLt_of_isLE {s t : Tensor} (hle : (s.blindCmp t).isLE)
    (hne : s.name ≠ t.name ∨ s.symmetry ≠ t.symmetry) : KindLt s.kind t.kind := by
  show (compare s.name t.name).then (compare s.symmetry t.symmetry) = .lt
  rw [blindCmp] at hle
  cases h : (compare s.name t.name).then (compare s.symmetry t.symmetry) with
  | lt => rfl
  | gt =>
      rw [h] at hle
      cases hle
  | eq =>
      obtain ⟨hname, hsymmetry⟩ := Ordering.then_eq_eq.mp h
      have hname : s.name = t.name := Std.LawfulEqOrd.eq_of_compare hname
      have hsymmetry : s.symmetry = t.symmetry := Std.LawfulEqOrd.eq_of_compare hsymmetry
      simp [hname, hsymmetry] at hne

/-- A list in strictly ascending order is the outcome of sorting any of its rearrangements. -/
theorem sortBy_eq_of_strict {α : Type} {cmp : α → α → Ordering} [Std.TransCmp cmp] {l l' : List α}
    (h : l.Pairwise fun a b => cmp a b = .lt) (hperm : l'.Perm l) : sortBy cmp l' = l := by
  have hdistinct : ∀ a ∈ l, ∀ b ∈ l, a ≠ b → cmp a b ≠ .eq := by
    have hne : l.Pairwise fun a b => cmp a b ≠ .eq := h.imp fun hlt heq => by simp [hlt] at heq
    have hsymm : Std.Symm fun a b => cmp a b ≠ .eq :=
      ⟨fun a b hab heq => hab (Std.OrientedCmp.eq_symm heq)⟩
    exact fun a ha b hb => hne.forall ha hb
  refine List.Perm.eq_of_pairwise ?_ (pairwise_sortBy l') (h.imp fun hlt => by simp [hlt])
    ((sortBy_perm cmp l').trans hperm)
  intro a b ha hb hab hba
  by_contra hne
  have ha' : a ∈ l := hperm.mem_iff.mp (mem_sortBy.mp ha)
  exact hdistinct a ha' b hb hne (Std.OrientedCmp.isLE_antisymm hab hba)

namespace Word

/-- Canonical forms keep everything that sorting the lists keeps. -/
theorem map_of_canonical? {β : Type} {f : Tensor → β} (hf : ∀ t, f t.sorted = f t) {v u : Word}
    {s : Sign} (h : v.canonical? = some (s, u)) : u.map f = v.map f := by
  induction v generalizing s u with
  | nil => rw [canonical?_nil h]
  | cons t v ih =>
      obtain ⟨_, x, _, w, ht, hw, _, rfl⟩ := canonical?_cons h
      rw [List.map_cons, List.map_cons, ih hw]
      rcases Tensor.canonical?_eq_some ht with ⟨_, rfl⟩ | ⟨_, rfl⟩
      · rfl
      · rw [hf]

/-- If one of two words of the same kinds has only operators, or none, so has the other. -/
theorem isOperator_of_map_kind {u v : Word} {b : Bool}
    (h : u.map Tensor.kind = v.map Tensor.kind) (hv : ∀ t ∈ v, t.isOperator = b) :
    ∀ t ∈ u, t.isOperator = b := by
  have hkinds : ∀ x ∈ u.map Tensor.kind, x.2.2 = b := by
    rw [h]
    exact List.forall_mem_map.mpr hv
  exact fun t ht => hkinds _ (List.mem_map_of_mem ht)

/-- If no two c-numbers have the same name and symmetry, renumbering cannot change the order in
which they are read. -/
theorem keepsReadingOrder_of_distinct {w : Word}
    (h : w.cNumbers.Pairwise fun s t => s.name ≠ t.name ∨ s.symmetry ≠ t.symmetry) :
    w.monomial.KeepsReadingOrder := by
  rw [keepsReadingOrder_monomial]
  intro s u hu
  have hkinds : u.map Tensor.kind =
      (sortBy Tensor.blindCmp w.cNumbers).map Tensor.kind ++ w.operators.map Tensor.kind := by
    rw [map_of_canonical? (fun _ => rfl) hu, List.map_map, ← List.map_append, ← reading]
    rfl
  obtain ⟨cs, os, rfl, hcs, hos⟩ := List.map_eq_append_iff.mp hkinds
  have hstrict : cs.Pairwise fun s t => KindLt s.kind t.kind := by
    rw [← List.pairwise_map, hcs, List.pairwise_map]
    have hdistinct := ((sortBy_perm Tensor.blindCmp w.cNumbers).pairwise_iff
      fun hst => hst.imp Ne.symm Ne.symm).mpr h
    exact (pairwise_sortBy w.cNumbers).imp₂ (fun _ _ => Tensor.kindLt_of_isLE) hdistinct
  have hc : ∀ t ∈ cs, t.isOperator = false :=
    isOperator_of_map_kind hcs fun t ht => isOperator_of_mem_cNumbers (mem_sortBy.mp ht)
  have ho : ∀ t ∈ os, t.isOperator = true :=
    isOperator_of_map_kind hos fun t ht => isOperator_of_mem_operators ht
  rw [reading, operators_normal, operators_append hc ho]
  refine congrArg (· ++ os) (sortBy_eq_of_strict (hstrict.imp Tensor.blindCmp_of_kindLt) ?_)
  have hperm : (normal (cs ++ os)).cNumbers.Perm (cNumbers (cs ++ os)) :=
    (normal_perm (cs ++ os)).filter _
  rwa [cNumbers_append hc ho] at hperm

end Word

namespace Expr

/-- Whether any two c-numbers of a term differ in name or symmetry. -/
def HasDistinctCNumbers (m : Expr) : Prop :=
  (m.leaves.filter fun t => !t.isOperator).Pairwise fun s t =>
    s.name ≠ t.name ∨ s.symmetry ≠ t.symmetry

instance (m : Expr) : Decidable m.HasDistinctCNumbers :=
  inferInstanceAs (Decidable (List.Pairwise _ _))

end Expr

theorem Word.leaves_monomial (w : Word) : w.monomial.leaves = w := by
  match w with
  | [] => rfl
  | [_] => rfl
  | s :: t :: w =>
      show Expr.factorLeaves ((s :: t :: w).map .tensor) = s :: t :: w
      rw [Expr.factorLeaves_map_tensor]

/-! ## The second pass -/

/-- **Renumbering twice.**  A second pass of renumbering changes nothing if the first one leaves the
dummies of every term numbered by first appearance.  It does so for every term that is read in the
same order afterwards, and a term is if no two of its c-numbers have the same name and symmetry. -/
theorem renumberDummies_idempotent :
    (∀ e : Expr, e.IsCanonical →
      (∀ t ∈ e.terms, ∀ s ∈ t.2.renumberTerm.terms, s.2.IsNumbered) →
      e.renumberDummies.renumberDummies = e.renumberDummies ∧
      ∀ t ∈ e.renumberDummies.terms, t.2.IsNumbered) ∧
    (∀ m : Expr, m.IsMonomial → m.KeepsReadingOrder →
      ∀ s ∈ m.renumberTerm.terms, s.2.IsNumbered) ∧
    ∀ m : Expr, m.IsMonomial → m.HasDistinctCNumbers → m.KeepsReadingOrder := by
  refine ⟨?_, fun _ => Expr.isNumbered_of_keepsReadingOrder, ?_⟩
  · intro e he hnumbered
    have hpasses : ∀ t ∈ e.terms.map fun t => (t.1, t.2.renumberTerm), t.2.IsCanonical :=
      List.forall_mem_map.mpr fun _ _ => Expr.isCanonical_rename _ _
    have hterms : ∀ t ∈ e.renumberDummies.terms, t.2.IsNumbered :=
      Expr.of_mem_terms_weightedSum hpasses (List.forall_mem_map.mpr hnumbered)
    have hcan := Expr.isCanonical_renumberDummies e
    refine ⟨Expr.mapTerms_eq_self hcan fun t ht => ?_, hterms⟩
    exact Expr.renumberTerm_eq_self (Expr.isMonomial_of_mem_terms hcan ht) (hterms t ht)
  · intro m hm hdistinct
    obtain ⟨w, _, rfl⟩ := Expr.isMonomial_iff.mp hm
    rw [Expr.HasDistinctCNumbers, Word.leaves_monomial] at hdistinct
    exact Word.keepsReadingOrder_of_distinct hdistinct

/-- Two different c-numbers that share a dummy. -/
def sharedDummy : Expr :=
  .prod [.tensor (.cNumber "f" [.dummy .general 3] [] .plain),
    .tensor (.cNumber "v" [.dummy .general 1, .dummy .general 3] [] .antisymmetric)]

/-- What renumbering makes of them: the first pass sorts the antisymmetric tensor. -/
def sharedDummyRenumbered : Expr :=
  .prod [.const (-1), .tensor (.cNumber "f" [.dummy .general 1] [] .plain),
    .tensor (.cNumber "v" [.dummy .general 1, .dummy .general 2] [] .antisymmetric)]

/-- A second pass leaves them alone. -/
theorem renumberDummies_sharedDummy :
    sharedDummy.renumberDummies = sharedDummyRenumbered ∧
      sharedDummyRenumbered.renumberDummies = sharedDummyRenumbered := by
  have hfirst : sharedDummy.renumberDummies = sharedDummyRenumbered := by decide +kernel
  have hcan : sharedDummy.IsCanonical := Expr.canonical_eq_self_iff.mp (by decide +kernel)
  have hmem : sharedDummy.terms = [(1, sharedDummy)] := by decide +kernel
  obtain ⟨htwice, hnumbers, hkeeps⟩ := renumberDummies_idempotent
  have hnumbered : ∀ t ∈ sharedDummy.terms, ∀ s ∈ t.2.renumberTerm.terms, s.2.IsNumbered := by
    intro t ht
    have hm := Expr.isMonomial_of_mem_terms hcan ht
    refine hnumbers t.2 hm (hkeeps t.2 hm ?_)
    rw [hmem, List.mem_singleton] at ht
    rw [ht]
    decide +kernel
  refine ⟨hfirst, ?_⟩
  rw [← hfirst]
  exact (htwice sharedDummy hcan hnumbered).1

/-- Three c-numbers that share a dummy, two of them with the same name. -/
def sharedTwice : Expr :=
  .prod [.tensor (.cNumber "f" [.dummy .general 2] [] .plain),
    .tensor (.cNumber "g" [.dummy .general 1, .dummy .general 2] [] .plain),
    .tensor (.cNumber "g" [.dummy .general 2, .dummy .general 3] [] .plain)]

/-- The first pass exchanges the two tensors of the same name, so the second pass reads their
dummies in another order and renumbers them again. -/
theorem renumberDummies_sharedTwice :
    sharedTwice.IsCanonical ∧
      sharedTwice.renumberDummies.renumberDummies ≠ sharedTwice.renumberDummies :=
  ⟨Expr.canonical_eq_self_iff.mp (by decide +kernel), by decide +kernel⟩

end SecondQuant
