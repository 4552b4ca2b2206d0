import Mathlib.Data.Fintype.Perm
import SecondQuant.Proofs.Arrangements
import SecondQuant.Proofs.Replacement

/-!
# Antisymmetric expansion

An antisymmetric tensor with two index lists of one length stands for the signed sum over the
permutations of its upper indices.  The expansion runs through the arrangements of the list in
lexicographic order and reads each sign off the inversions; this file shows that it writes out that
sum, in every tensor of a tree and through products and sums.

* `Tensor.antisymmetrized` — the signed sum over all permutations, as a plain tree.
* `arrangements_perm` — the arrangements of distinct indices are met once by the permutations.
* `Tensor.eval_expansionWords` — the expansion of a tensor has the value of that sum, times the sign
  that sorts its upper list.
* `Expr.expandAntisymmetric_laws` — **antisymmetric expansion is a map of algebras that writes out
  every antisymmetric tensor**.
-/

namespace SecondQuant

open OperatorAlgebra (gen lawful_gen)

/-! ## Arrangements and permutations -/

theorem permuted_injective {α : Type} {l : List α} (h : l.Nodup) :
    Function.Injective (permuted l) := by
  intro σ τ hστ
  have hget : l.get ∘ σ = l.get ∘ τ := List.ofFn_injective hστ
  exact Equiv.ext fun k => List.nodup_iff_injective_get.mp h (congrFun hget k)

/-- Every arrangement of a list of distinct indices belongs to one permutation of its places. -/
theorem arrangements_perm {is : List Index} (h : is.Nodup) :
    (arrangements is).Perm ((permsOfList (List.finRange is.length)).map (permuted is)) := by
  have hperms : (permsOfList (List.finRange is.length)).Nodup :=
    nodup_permsOfList (List.nodup_finRange _)
  refine (List.perm_ext_iff_of_nodup (nodup_arrangements is)
    (hperms.map (permuted_injective h))).mpr fun js => ?_
  rw [mem_arrangements, List.mem_map]
  constructor
  · intro hjs
    obtain ⟨σ, rfl⟩ := exists_permuted hjs
    exact ⟨σ, mem_permsOfList_of_mem fun k _ => List.mem_finRange k, rfl⟩
  · rintro ⟨σ, -, rfl⟩
    exact permuted_perm is σ

namespace Tensor

/-! ## Antisymmetrised tensors -/

/-- Whether the tensor is an antisymmetric c-number with equally many upper and lower indices, at
least two of each. -/
def IsTwoSided (t : Tensor) : Prop :=
  t.symmetry = .antisymmetric ∧ t.ladder = none ∧
    2 ≤ t.upper.length ∧ t.upper.length = t.lower.length

instance (t : Tensor) : Decidable t.IsTwoSided :=
  inferInstanceAs (Decidable (_ ∧ _ ∧ _ ∧ _))

theorem isExpandable_iff {t : Tensor} : t.isExpandable = true ↔ t.IsTwoSided := by
  simp [isExpandable, isOperator, IsTwoSided, Nat.lt_iff_add_one_le, and_assoc]

/-- The tensor without symmetry that has these upper indices instead. -/
def plainWith (t : Tensor) (is : List Index) : Tensor :=
  cNumber t.name is t.lower .plain

/-- A two-sided tensor written out: the sum over all permutations of its upper indices, each with
its sign.  Any other tensor stands for itself. -/
def antisymmetrized (t : Tensor) : Expr :=
  if t.IsTwoSided then
    .sum ((permsOfList (List.finRange t.upper.length)).map fun σ =>
      (((Equiv.Perm.sign σ : ℤ) : ℚ), .tensor (t.plainWith (SecondQuant.permuted t.upper σ))))
  else .tensor t

/-! ## The expansion of a tensor -/

section Values

variable {A : Type} [Ring A] [Algebra ℚ A] (g : Tensor → A) {t : Tensor}

theorem expansionWords_of_not (h : ¬t.IsTwoSided) : t.expansionWords = t.canonicalWords := by
  rw [expansionWords, if_neg (mt isExpandable_iff.mp h)]

theorem expansionWords_of_isTwoSided (h : t.IsTwoSided) :
    t.expansionWords = (arrangements t.upper).map t.arranged := by
  rw [expansionWords, if_pos (isExpandable_iff.mpr h)]

/-- The expansion of a two-sided tensor is a signed sum over the arrangements of its upper list. -/
theorem eval_expansionWords_of_isTwoSided (h : t.IsTwoSided) :
    WordSum.eval g t.expansionWords =
      ((arrangements t.upper).map fun is => (sortingSign is).toRat • g (t.plainWith is)).sum := by
  rw [expansionWords_of_isTwoSided h, WordSum.eval, Combination.eval, List.map_map]
  congr 1
  refine List.map_congr_left fun is _ => ?_
  rw [Function.comp_apply, arranged, Word.eval_cons, Word.eval_nil, mul_one]
  rfl

theorem eval_antisymmetrized_of_isTwoSided (h : t.IsTwoSided) :
    t.antisymmetrized.eval g =
      ((permsOfList (List.finRange t.upper.length)).map fun σ =>
        ((Equiv.Perm.sign σ : ℤ) : ℚ) • g (t.plainWith (SecondQuant.permuted t.upper σ))).sum := by
  rw [antisymmetrized, if_pos h, Expr.eval_sum, Combination.eval, List.map_map]
  rfl

/-- The expansion of a two-sided tensor of distinct upper indices has the value of the sum over all
permutations, times the sign that sorts the upper list. -/
theorem eval_expansionWords_of_nodup (h : t.IsTwoSided) (hu : t.upper.Nodup) :
    WordSum.eval g t.expansionWords = (sortingSign t.upper).toRat • t.antisymmetrized.eval g := by
  rw [eval_expansionWords_of_isTwoSided g h, eval_antisymmetrized_of_isTwoSided g h,
    ((arrangements_perm hu).map _).sum_eq, List.map_map, List.smul_sum, List.map_map]
  congr 1
  refine List.map_congr_left fun σ _ => ?_
  rw [Function.comp_apply, Function.comp_apply, toRat_sortingSign_permuted hu, smul_smul, mul_comm]

end Values

theorem isTwoSided_sorted {t : Tensor} : t.sorted.IsTwoSided ↔ t.IsTwoSided := by
  simp [IsTwoSided, sorted]

theorem not_isTwoSided_of_mem_expansionWords {t : Tensor} {s : ℚ × Word}
    (hs : s ∈ t.expansionWords) : ∀ x ∈ s.2, ¬x.IsTwoSided := by
  by_cases ht : t.IsTwoSided
  · rw [expansionWords_of_isTwoSided ht] at hs
    obtain ⟨is, _, rfl⟩ := List.mem_map.mp hs
    exact List.forall_mem_singleton.mpr fun h => Symmetry.noConfusion h.1
  · rw [expansionWords_of_not ht] at hs
    intro x hx
    rcases eq_or_eq_sorted_of_mem_canonicalWords hs x hx with rfl | rfl
    · exact ht
    · rwa [isTwoSided_sorted]

theorem isOperator_of_mem_expansionWords {t : Tensor} (ht : t.isOperator = false) {s : ℚ × Word}
    (hs : s ∈ t.expansionWords) : ∀ x ∈ s.2, x.isOperator = false := by
  by_cases htwo : t.IsTwoSided
  · rw [expansionWords_of_isTwoSided htwo] at hs
    obtain ⟨is, _, rfl⟩ := List.mem_map.mp hs
    exact List.forall_mem_singleton.mpr rfl
  · rw [expansionWords_of_not htwo] at hs
    intro x hx
    rcases eq_or_eq_sorted_of_mem_canonicalWords hs x hx with rfl | rfl <;> exact ht

theorem leafRule_expansionWords : LeafRule expansionWords where
  isCanonical _ _ hs := Expr.isCanonical_of_mem_expansionWords hs
  cNumbers _ ht _ hs := isOperator_of_mem_expansionWords ht hs

/-! ## Canonical tensors -/

/-- A canonical antisymmetric tensor has distinct indices, and its lists are sorted. -/
theorem IsCanonical.sorted_eq_self {t : Tensor} (h : t.IsCanonical)
    (hs : t.symmetry = .antisymmetric) : t.Distinct ∧ t.sorted = t := by
  by_cases hd : t.Distinct
  · rw [IsCanonical, canonical?_of_distinct hs hd] at h
    exact ⟨hd, (Prod.mk.inj (Option.some.inj h)).2⟩
  · rw [IsCanonical, canonical?_of_not_distinct hs hd] at h
    cases h

/-- A canonical tensor expands into the sum over all permutations of its upper indices. -/
theorem eval_expansionWords_of_isCanonical {t : Tensor} (h : t.IsCanonical) :
    WordSum.eval gen t.expansionWords = t.antisymmetrized.denote := by
  by_cases ht : t.IsTwoSided
  · obtain ⟨hd, hsorted⟩ := h.sorted_eq_self ht.1
    have hsign : sortingSign t.upper = .plus := by
      rw [← hsorted]
      exact sortingSign_of_ascending (pairwise_sortBy t.upper)
    rw [eval_expansionWords_of_nodup gen ht hd.1, hsign, Sign.toRat, one_smul, Expr.denote]
  · rw [expansionWords_of_not ht, eval_canonicalWords lawful_gen, antisymmetrized, if_neg ht]
    rfl

end Tensor

/-! ## The laws -/

namespace Expr

/-- The expansion of a canonical tree is the canonical form of the tree in which every two-sided
tensor is written out. -/
theorem expandAntisymmetric_eq_canonical_replace {e : Expr} (h : e.IsCanonical) :
    e.expandAntisymmetric = (e.replace Tensor.antisymmetrized).canonical :=
  toExpr_expand_eq Tensor.leafRule_expansionWords.isCanonical fun _ ht =>
    Tensor.eval_expansionWords_of_isCanonical (isCanonical_of_mem_leaves h _ ht)

theorem not_isTwoSided_of_mem_leaves (e : Expr) :
    ∀ t ∈ e.expandAntisymmetric.leaves, ¬t.IsTwoSided :=
  forall_leaves_toExpr_expand Tensor.leafRule_expansionWords.isCanonical
    fun _ _ _ hs => Tensor.not_isTwoSided_of_mem_expansionWords hs

/-- A canonical tree without two-sided tensors is its own expansion. -/
theorem expandAntisymmetric_eq_self {e : Expr} (h : e.IsCanonical)
    (htwo : ∀ t ∈ e.leaves, ¬t.IsTwoSided) : e.expandAntisymmetric = e := by
  refine eq_of_denote_eq (isCanonical_expandAntisymmetric e) h ?_
  rw [expandAntisymmetric, denote_toExpr_expand, denote]
  refine eval_eq_of_leaves e fun t ht => ?_
  rw [Tensor.expansionWords_of_not (htwo t ht), eval_canonicalWords lawful_gen]

theorem expandAntisymmetric_expandAntisymmetric (e : Expr) :
    e.expandAntisymmetric.expandAntisymmetric = e.expandAntisymmetric :=
  expandAntisymmetric_eq_self (isCanonical_expandAntisymmetric e) (not_isTwoSided_of_mem_leaves e)

theorem expandAntisymmetric_mul (a b : Expr) :
    (a * b).expandAntisymmetric = a.expandAntisymmetric * b.expandAntisymmetric :=
  Tensor.leafRule_expansionWords.product [a, b]

theorem expandAntisymmetric_add (a b : Expr) :
    (a + b).expandAntisymmetric = a.expandAntisymmetric + b.expandAntisymmetric :=
  Tensor.leafRule_expansionWords.weightedSum [(1, a), (1, b)]

/-- **Antisymmetric expansion is a map of algebras that writes out every antisymmetric tensor.**
In a canonical tree every two-sided tensor is replaced by the signed sum over all permutations of
its upper indices and nothing else changes; no two-sided tensor is left, so a second expansion
changes nothing; products and sums are expanded member by member. -/
theorem expandAntisymmetric_laws :
    (∀ e : Expr, e.IsCanonical →
      e.expandAntisymmetric = (e.replace Tensor.antisymmetrized).canonical) ∧
    (∀ e : Expr, (∀ t ∈ e.expandAntisymmetric.leaves, ¬t.IsTwoSided) ∧
      e.expandAntisymmetric.expandAntisymmetric = e.expandAntisymmetric) ∧
    (∀ a b : Expr, (a * b).expandAntisymmetric = a.expandAntisymmetric * b.expandAntisymmetric) ∧
    ∀ a b : Expr, (a + b).expandAntisymmetric = a.expandAntisymmetric + b.expandAntisymmetric :=
  ⟨fun _ => expandAntisymmetric_eq_canonical_replace,
    fun e => ⟨not_isTwoSided_of_mem_leaves e, expandAntisymmetric_expandAntisymmetric e⟩,
    expandAntisymmetric_mul, expandAntisymmetric_add⟩

/-- An antisymmetric tensor plus the exchange term that its expansion subtracts. -/
def plusExchange : Expr :=
  cNumber "g" [.dummy .general 1, .dummy .general 2] [.dummy .general 3, .dummy .general 4]
      .antisymmetric +
    cNumber "g" [.dummy .general 2, .dummy .general 1] [.dummy .general 3, .dummy .general 4]
      .plain

/-- The exchange term cancels, and the direct term is left. -/
theorem expandAntisymmetric_laws_plusExchange :
    plusExchange.IsCanonical ∧
      plusExchange.expandAntisymmetric =
        (plusExchange.replace Tensor.antisymmetrized).canonical ∧
      plusExchange.expandAntisymmetric =
        cNumber "g" [.dummy .general 1, .dummy .general 2] [.dummy .general 3, .dummy .general 4]
          .plain := by
  have hcan : plusExchange.IsCanonical :=
    isCanonical_add (isCanonical_ofTensor _) (isCanonical_ofTensor _)
  exact ⟨hcan, expandAntisymmetric_laws.1 plusExchange hcan, by decide +kernel⟩

end Expr

end SecondQuant
