import SecondQuant.Proofs.AntisymmetricExpansion

/-!
# Expanding tensors that are not sorted

The expansion of an antisymmetric tensor starts at the ascending arrangement of its upper list and
keeps the lower list.  It does not account for the signs that sort the two lists, and it does not
notice a repeated index.  A tree may therefore lose its value, unless it is brought into canonical
form first, as every tensor is that is built by `ofTensor`.

* `Tensor.IsEvenlyOrdered` — the tensors whose expansion keeps their value: the indices are
  distinct, an even permutation sorts the upper list, and the lower list ascends.
* `Tensor.lawful_pick` — one tensor without symmetry may be read off any tree;
  `Tensor.eval_pick_expansionWords` reads it off an expansion.
* `Expr.eval_expandAntisymmetric_canonical` — the value of the expanded canonical form of a tree.
* `Expr.expandAntisymmetric_canonical` — **which trees may be expanded without bringing them into
  canonical form**; `Expr.expandAntisymmetric_unsorted` shows what happens to others.
-/

namespace SecondQuant

open OperatorAlgebra (gen lawful_gen)

namespace Tensor

/-! ## Evenly ordered tensors -/

/-- Whether the indices of each list are distinct, an even permutation sorts the upper list, and the
lower list ascends. -/
def IsEvenlyOrdered (t : Tensor) : Prop :=
  t.Distinct ∧ sortingSign t.upper = .plus ∧ t.lower.Pairwise fun i j => (compare i j).isLE

instance (t : Tensor) : Decidable t.Distinct :=
  inferInstanceAs (Decidable (_ ∧ _))

instance (t : Tensor) : Decidable t.IsEvenlyOrdered :=
  inferInstanceAs (Decidable (_ ∧ _ ∧ _))

theorem IsEvenlyOrdered.sign_eq {t : Tensor} (h : t.IsEvenlyOrdered) : t.sign = .plus := by
  rw [sign, h.2.1, sortingSign_of_ascending h.2.2, Sign.plus_mul]

section Values

variable {A : Type} [Ring A] [Algebra ℚ A] {t : Tensor}

/-- Sorting the upper list does not change the expansion. -/
theorem eval_expansionWords_sorted (g : Tensor → A) (h : t.IsTwoSided)
    (hlower : sortBy compare t.lower = t.lower) :
    WordSum.eval g t.sorted.expansionWords = WordSum.eval g t.expansionWords := by
  have hupper : arrangements t.sorted.upper = arrangements t.upper :=
    arrangements_congr (sortBy_perm compare t.upper)
  have hplain : t.sorted.plainWith = t.plainWith := by
    funext is
    rw [plainWith, plainWith, sorted, hlower]
  rw [eval_expansionWords_of_isTwoSided g (isTwoSided_sorted.mpr h),
    eval_expansionWords_of_isTwoSided g h, hupper, hplain]

/-- A tensor that is not two-sided has the expansion of its signed canonical form. -/
theorem eval_canonicalWords_expansionWords_of_not (h : ¬t.IsTwoSided) :
    WordSum.eval (fun x => WordSum.eval gen x.expansionWords) t.canonicalWords =
      WordSum.eval gen t.expansionWords := by
  rw [expansionWords_of_not h]
  cases hc : t.canonical? with
  | none => rw [eval_canonicalWords_of_none hc, eval_canonicalWords_of_none hc]
  | some p =>
      obtain ⟨s, u⟩ := p
      have hu : ¬u.IsTwoSided := by
        rcases canonical?_eq_some hc with ⟨_, rfl⟩ | ⟨_, rfl⟩
        · exact h
        · rwa [isTwoSided_sorted]
      rw [eval_canonicalWords_of_some hc, eval_canonicalWords_of_some hc,
        expansionWords_of_not hu, eval_canonicalWords lawful_gen]

/-- An evenly ordered tensor has the expansion of its signed canonical form. -/
theorem eval_canonicalWords_expansionWords (h : t.IsTwoSided → t.IsEvenlyOrdered) :
    WordSum.eval (fun x => WordSum.eval gen x.expansionWords) t.canonicalWords =
      WordSum.eval gen t.expansionWords := by
  by_cases ht : t.IsTwoSided
  · have heven := h ht
    rw [eval_canonicalWords_of_some (canonical?_of_distinct ht.1 heven.1), heven.sign_eq,
      Sign.toRat, one_smul]
    exact eval_expansionWords_sorted gen ht (sortBy_eq_self heven.2.2)
  · exact eval_canonicalWords_expansionWords_of_not ht

end Values

/-! ## Reading a tensor off an expansion -/

/-- The assignment that is 1 at one tensor and 0 at all others. -/
def pick (x : Tensor) (t : Tensor) : ℚ :=
  if t = x then 1 else 0

theorem pick_eq_zero {x t : Tensor} (hx : x.symmetry = .plain) (ht : t.symmetry ≠ .plain) :
    pick x t = 0 :=
  if_neg fun he => ht ((congrArg symmetry he).trans hx)

/-- A tensor without symmetry may be picked out: no relation mentions it. -/
theorem lawful_pick {x : Tensor} (hx : x.symmetry = .plain) : Lawful (pick x) where
  commute _ _ _ := Commute.all _ _
  symmetric t σ τ hs := by
    have ht : t.symmetry ≠ .plain := by simp [hs]
    rw [pick_eq_zero hx ht]
    exact pick_eq_zero hx ht
  antisymmetric t σ τ hs := by
    have ht : t.symmetry ≠ .plain := by simp [hs]
    rw [pick_eq_zero hx ht, smul_zero]
    exact pick_eq_zero hx ht
  repeated t hs _ := pick_eq_zero hx (by simp [hs])

/-- The expansion of a tensor with these upper indices in any order, read at one arrangement. -/
theorem eval_pick_expansionWords {t u : Tensor} (h : u.IsTwoSided) (hname : u.name = t.name)
    (hupper : t.upper.Perm u.upper) :
    WordSum.eval (pick (t.plainWith t.upper)) u.expansionWords =
      if u.lower = t.lower then (sortingSign t.upper).toRat else 0 := by
  have hterm : ∀ is, pick (t.plainWith t.upper) (u.plainWith is) =
      if is = t.upper then (if u.lower = t.lower then 1 else 0) else 0 := by
    intro is
    rw [pick, plainWith, plainWith, cNumber, cNumber, ← ite_and]
    simp [hname]
  rw [eval_expansionWords_of_isTwoSided _ h, ← List.sum_toFinset _ (nodup_arrangements u.upper),
    Finset.sum_eq_single t.upper]
  · rw [hterm, if_pos rfl]
    split <;> simp
  · intro is _ hne
    rw [hterm, if_neg hne, smul_zero]
  · intro hnot
    exact absurd (List.mem_toFinset.mpr (mem_arrangements.mpr hupper)) hnot

/-- The expansion of the signed canonical form, read at the tensor as it is written: nothing is
found there if an index is repeated or the lower list is not sorted. -/
theorem eval_pick_canonicalWords_expansionWords {t : Tensor} (ht : t.IsTwoSided) :
    WordSum.eval (fun x => WordSum.eval (pick (t.plainWith t.upper)) x.expansionWords)
        t.canonicalWords =
      if t.Distinct ∧ t.sorted.lower = t.lower then
        t.sign.toRat * (sortingSign t.upper).toRat else 0 := by
  by_cases hd : t.Distinct
  · have hsorted := eval_pick_expansionWords (t := t) (isTwoSided_sorted.mpr ht) rfl
      (sortBy_perm compare t.upper).symm
    rw [eval_canonicalWords_of_some (canonical?_of_distinct ht.1 hd), hsorted, smul_eq_mul,
      mul_ite, mul_zero]
    simp [hd]
  · rw [eval_canonicalWords_of_none (canonical?_of_not_distinct ht.1 hd), if_neg (mt And.left hd)]

end Tensor

/-! ## Expanding the canonical form -/

namespace Expr

section Values

variable {A : Type} [Ring A] [Algebra ℚ A] {g : Tensor → A}

theorem eval_expandAntisymmetric (hg : CNumbersCommute g) (e : Expr) :
    e.expandAntisymmetric.eval g = e.eval fun t => WordSum.eval g t.expansionWords := by
  rw [expandAntisymmetric, WordSum.eval_toExpr, eval_expand hg]

/-- The value of the expanded canonical form: every tensor is worth its signed canonical form,
expanded. -/
theorem eval_expandAntisymmetric_canonical (hg : CNumbersCommute g) (e : Expr) :
    e.canonical.expandAntisymmetric.eval g =
      e.eval fun t => WordSum.eval (fun x => WordSum.eval g x.expansionWords) t.canonicalWords := by
  have hexpanded : CNumbersCommute fun x => WordSum.eval g x.expansionWords :=
    commute_eval_of_cNumbers hg Tensor.leafRule_expansionWords.cNumbers
  rw [eval_expandAntisymmetric hg, canonical, WordSum.eval_toExpr, eval_expand hexpanded]

end Values

/-- A tree whose two-sided tensors are evenly ordered may be expanded as it stands. -/
theorem expandAntisymmetric_canonical_of_evenlyOrdered {e : Expr}
    (h : ∀ t ∈ e.leaves, t.IsTwoSided → t.IsEvenlyOrdered) :
    e.canonical.expandAntisymmetric = e.expandAntisymmetric := by
  refine eq_of_denote_eq (isCanonical_expandAntisymmetric _) (isCanonical_expandAntisymmetric _) ?_
  rw [denote, eval_expandAntisymmetric_canonical lawful_gen.commute, denote,
    eval_expandAntisymmetric lawful_gen.commute]
  exact eval_eq_of_leaves e fun t ht => Tensor.eval_canonicalWords_expansionWords (h t ht)

/-- A two-sided tensor whose expansion keeps its value is evenly ordered. -/
theorem isEvenlyOrdered_of_expandAntisymmetric_canonical {t : Tensor} (ht : t.IsTwoSided)
    (h : (tensor t).canonical.expandAntisymmetric = (tensor t).expandAntisymmetric) :
    t.IsEvenlyOrdered := by
  have hlawful : Lawful (Tensor.pick (t.plainWith t.upper)) := Tensor.lawful_pick rfl
  have hread := congrArg (eval (Tensor.pick (t.plainWith t.upper))) h
  rw [eval_expandAntisymmetric_canonical hlawful.commute,
    eval_expandAntisymmetric hlawful.commute, eval, eval,
    Tensor.eval_pick_canonicalWords_expansionWords ht,
    Tensor.eval_pick_expansionWords ht rfl (List.Perm.refl _), if_pos rfl] at hread
  have hne := (sortingSign t.upper).toRat_ne_zero
  split at hread
  · next hsorted =>
      obtain ⟨hd, hlower⟩ := hsorted
      have hascending : t.lower.Pairwise fun i j => (compare i j).isLE := by
        rw [← hlower]
        exact pairwise_sortBy t.lower
      have hsign : t.sign = .plus :=
        Sign.toRat_eq_one.mp ((mul_left_eq_self₀.mp hread).resolve_right hne)
      rw [Tensor.sign, sortingSign_of_ascending hascending, Sign.mul_plus] at hsign
      exact ⟨hd, hsign, hascending⟩
  · exact absurd hread.symm hne

/-! ## Tensors built in canonical form -/

theorem denote_expandAntisymmetric_ofTensor (t : Tensor) :
    (ofTensor t).expandAntisymmetric.denote =
      WordSum.eval (fun x => WordSum.eval gen x.expansionWords) t.canonicalWords := by
  rw [denote, eval_expandAntisymmetric lawful_gen.commute, eval_ofTensor]

/-- What antisymmetric tensors are worth, signed canonical form expanded, obeys the relations. -/
theorem lawful_expanded :
    Lawful fun t : Tensor =>
      WordSum.eval (fun x => WordSum.eval gen x.expansionWords) t.canonicalWords :=
  lawful_canonicalWords
    (commute_eval_of_cNumbers lawful_gen.commute Tensor.leafRule_expansionWords.cNumbers)

/-- Permuting the indices of a tensor before it is built multiplies the expansion by the signs of
the permutations. -/
theorem expandAntisymmetric_ofTensor_permuted {t : Tensor} (hs : t.symmetry = .antisymmetric)
    (σ : Equiv.Perm (Fin t.upper.length)) (τ : Equiv.Perm (Fin t.lower.length)) :
    (ofTensor (t.permuted σ τ)).expandAntisymmetric =
      (((Equiv.Perm.sign σ * Equiv.Perm.sign τ : ℤˣ) : ℤ) : ℚ) •
        (ofTensor t).expandAntisymmetric := by
  refine eq_of_denote_eq (isCanonical_expandAntisymmetric _)
    (isCanonical_smul _ (isCanonical_expandAntisymmetric _)) ?_
  rw [denote_smul, denote_expandAntisymmetric_ofTensor, denote_expandAntisymmetric_ofTensor]
  exact lawful_expanded.antisymmetric t σ τ hs

theorem expandAntisymmetric_ofTensor_repeated {t : Tensor} (hs : t.symmetry = .antisymmetric)
    (hd : ¬t.Distinct) : (ofTensor t).expandAntisymmetric = 0 := by
  refine eq_of_denote_eq (isCanonical_expandAntisymmetric _) isCanonical_zero ?_
  rw [denote_expandAntisymmetric_ofTensor, denote_zero]
  exact lawful_expanded.repeated t hs hd

/-! ## Which trees may be expanded as they stand -/

/-- **Which trees may be expanded without bringing them into canonical form.**  A tree keeps its
value if all its two-sided tensors are evenly ordered, and a two-sided tensor on its own keeps it in
no other case.  The expansion of an antisymmetric tensor that is built in canonical form follows the
permutations of its indices by sign, and it is zero when a list repeats an index. -/
theorem expandAntisymmetric_canonical (e : Expr) (t : Tensor) :
    ((∀ x ∈ e.leaves, x.IsTwoSided → x.IsEvenlyOrdered) →
      e.expandAntisymmetric = e.canonical.expandAntisymmetric) ∧
    ((tensor t).expandAntisymmetric = (tensor t).canonical.expandAntisymmetric ↔
      (t.IsTwoSided → t.IsEvenlyOrdered)) ∧
    (t.symmetry = .antisymmetric →
      (∀ (σ : Equiv.Perm (Fin t.upper.length)) (τ : Equiv.Perm (Fin t.lower.length)),
        (ofTensor (t.permuted σ τ)).expandAntisymmetric =
          (((Equiv.Perm.sign σ * Equiv.Perm.sign τ : ℤˣ) : ℤ) : ℚ) •
            (ofTensor t).expandAntisymmetric) ∧
      (¬t.Distinct → (ofTensor t).expandAntisymmetric = 0)) := by
  refine ⟨?_, ⟨?_, ?_⟩, ?_⟩
  · intro h
    exact (expandAntisymmetric_canonical_of_evenlyOrdered h).symm
  · intro h ht
    exact isEvenlyOrdered_of_expandAntisymmetric_canonical ht h.symm
  · intro h
    exact (expandAntisymmetric_canonical_of_evenlyOrdered (List.forall_mem_singleton.mpr h)).symm
  · intro hs
    exact ⟨expandAntisymmetric_ofTensor_permuted hs, expandAntisymmetric_ofTensor_repeated hs⟩

/-- A two-body tensor as it was written, without bringing it into canonical form. -/
def rawTwoBody (j k m n : Nat) : Tensor :=
  Tensor.cNumber "g" [.dummy .general j, .dummy .general k] [.dummy .general m, .dummy .general n]
    .antisymmetric

/-- A raw product with a raw three-body tensor whose upper indices are turned round in a cycle. -/
def rawCycle : Expr :=
  prod [const 2, sum [(1, tensor (Tensor.cNumber "h"
    [.dummy .general 2, .dummy .general 3, .dummy .general 1]
    [.dummy .general 4, .dummy .general 5, .dummy .general 6] .antisymmetric))]]

/-- The cycle is even, so the raw product may be expanded as it stands; a tensor with exchanged
upper indices may not, and a repeated index makes an expansion zero when the tensor is built in
canonical form. -/
theorem expandAntisymmetric_canonical_rawCycle :
    (∀ x ∈ rawCycle.leaves, x.IsTwoSided → x.IsEvenlyOrdered) ∧
      rawCycle.expandAntisymmetric = rawCycle.canonical.expandAntisymmetric ∧
      (tensor (rawTwoBody 2 1 3 4)).expandAntisymmetric ≠
        (tensor (rawTwoBody 2 1 3 4)).canonical.expandAntisymmetric ∧
      (ofTensor (rawTwoBody 1 1 3 4)).expandAntisymmetric = 0 := by
  have heven : ∀ x ∈ rawCycle.leaves, x.IsTwoSided → x.IsEvenlyOrdered := by decide +kernel
  have hodd : ¬((rawTwoBody 2 1 3 4).IsTwoSided → (rawTwoBody 2 1 3 4).IsEvenlyOrdered) := by
    decide
  have hrepeated : ¬(rawTwoBody 1 1 3 4).Distinct := by decide
  refine ⟨heven, (expandAntisymmetric_canonical rawCycle (rawTwoBody 2 1 3 4)).1 heven, ?_, ?_⟩
  · exact mt (expandAntisymmetric_canonical rawCycle (rawTwoBody 2 1 3 4)).2.1.mp hodd
  · exact ((expandAntisymmetric_canonical rawCycle (rawTwoBody 1 1 3 4)).2.2 rfl).2 hrepeated

/-- Exchanging the upper indices of a raw tensor does not change its expansion, exchanging the lower
ones is not read as a sign, and a repeated index leaves a tensor without symmetry. -/
theorem expandAntisymmetric_unsorted :
    (tensor (rawTwoBody 2 1 3 4)).expandAntisymmetric =
        (tensor (rawTwoBody 1 2 3 4)).expandAntisymmetric ∧
      (tensor (rawTwoBody 2 1 3 4)).expandAntisymmetric ≠
        (tensor (rawTwoBody 2 1 3 4)).canonical.expandAntisymmetric ∧
      (tensor (rawTwoBody 1 2 4 3)).expandAntisymmetric ≠
        (tensor (rawTwoBody 1 2 4 3)).canonical.expandAntisymmetric ∧
      (tensor (rawTwoBody 1 2 4 3)).expandAntisymmetric ≠
        -(tensor (rawTwoBody 1 2 3 4)).expandAntisymmetric ∧
      (tensor (rawTwoBody 1 1 3 4)).expandAntisymmetric ≠ 0 := by
  decide +kernel

end Expr

end SecondQuant
