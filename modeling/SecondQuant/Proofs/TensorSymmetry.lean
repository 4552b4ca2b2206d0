import SecondQuant.Expr.Algebra
import SecondQuant.Proofs.Permutation

/-!
# Rearranged tensors

Permuting the places of an index list leaves a symmetric tensor unchanged and multiplies an
antisymmetric one by the sign of the permutation.  The canonical form of a tensor follows the same
law, and it is a fixed point.

* `Tensor.permuted` — the tensor with its upper and lower places permuted.
* `Tensor.sorted_permuted`, `Tensor.toRat_sign_permuted` — sorting forgets a permutation up to its
  sign.
* `Tensor.exists_sorted_eq_permuted` — sorting permutes the places.
* `Tensor.isCanonical_of_canonical?` — the canonical form of a tensor is canonical.
* `Tensor.canonical_rearranged` — **the canonical form sees a rearrangement by its sign only**.
-/

namespace SecondQuant

namespace Tensor

/-! ## Permuted places -/

/-- The tensor with the places of its upper and of its lower list permuted. -/
def permuted (t : Tensor) (σ : Equiv.Perm (Fin t.upper.length))
    (τ : Equiv.Perm (Fin t.lower.length)) : Tensor :=
  { t with upper := SecondQuant.permuted t.upper σ, lower := SecondQuant.permuted t.lower τ }

/-- Whether the index lists have no repetitions. -/
def Distinct (t : Tensor) : Prop :=
  t.upper.Nodup ∧ t.lower.Nodup

/-- The sign that sorting the two lists contributes. -/
def sign (t : Tensor) : Sign :=
  sortingSign t.upper * sortingSign t.lower

variable {t : Tensor} {σ : Equiv.Perm (Fin t.upper.length)} {τ : Equiv.Perm (Fin t.lower.length)}

theorem distinct_permuted : (t.permuted σ τ).Distinct ↔ t.Distinct :=
  and_congr (permuted_perm t.upper σ).nodup_iff (permuted_perm t.lower τ).nodup_iff

theorem sorted_permuted : (t.permuted σ τ).sorted = t.sorted := by
  have hu : sortBy compare (SecondQuant.permuted t.upper σ) = sortBy compare t.upper :=
    sortBy_congr (permuted_perm t.upper σ)
  have hl : sortBy compare (SecondQuant.permuted t.lower τ) = sortBy compare t.lower :=
    sortBy_congr (permuted_perm t.lower τ)
  rw [sorted, sorted, permuted, hu, hl]

theorem toRat_sign_permuted (h : t.Distinct) :
    (t.permuted σ τ).sign.toRat =
      ((Equiv.Perm.sign σ * Equiv.Perm.sign τ : ℤˣ) : ℤ) * t.sign.toRat := by
  rw [sign, Sign.toRat_mul, permuted, toRat_sortingSign_permuted h.1,
    toRat_sortingSign_permuted h.2, sign, Sign.toRat_mul]
  push_cast
  ring

/-- Sorting the lists of a tensor permutes their places. -/
theorem exists_sorted_eq_permuted (t : Tensor) : ∃ σ τ, t.sorted = t.permuted σ τ := by
  obtain ⟨σ, hσ⟩ := exists_permuted (sortBy_perm compare t.upper)
  obtain ⟨τ, hτ⟩ := exists_permuted (sortBy_perm compare t.lower)
  exact ⟨σ, τ, by rw [sorted, permuted, hσ, hτ]⟩

/-! ## The canonical form, by symmetry -/

theorem canonical?_of_plain (h : t.symmetry = .plain) : t.canonical? = some (.plus, t) := by
  rw [canonical?, h]

theorem canonical?_of_symmetric (h : t.symmetry = .symmetric) :
    t.canonical? = some (.plus, t.sorted) := by
  rw [canonical?, h]

theorem canonical?_of_distinct (h : t.symmetry = .antisymmetric) (hd : t.Distinct) :
    t.canonical? = some (t.sign, t.sorted) := by
  rw [canonical?, h]
  exact if_pos hd

/-- An antisymmetric tensor that repeats an index in a list vanishes. -/
theorem canonical?_of_not_distinct (h : t.symmetry = .antisymmetric) (hd : ¬t.Distinct) :
    t.canonical? = none := by
  rw [canonical?, h]
  exact if_neg hd

/-- A symmetric tensor does not depend on the order inside its lists. -/
theorem canonical?_permuted_of_symmetric (h : t.symmetry = .symmetric) :
    (t.permuted σ τ).canonical? = t.canonical? := by
  rw [canonical?_of_symmetric h, canonical?_of_symmetric (t := t.permuted σ τ) h, sorted_permuted]

/-! ## Canonical tensors -/

/-- Whether bringing the tensor into canonical form changes nothing, not even its sign. -/
def IsCanonical (t : Tensor) : Prop :=
  t.canonical? = some (.plus, t)

instance (t : Tensor) : Decidable t.IsCanonical :=
  inferInstanceAs (Decidable (t.canonical? = some (.plus, t)))

theorem isCanonical_of_plain (h : t.symmetry = .plain) : t.IsCanonical :=
  canonical?_of_plain h

theorem sorted_sorted (t : Tensor) : t.sorted.sorted = t.sorted := by
  rw [sorted, sorted, sortBy_eq_self (pairwise_sortBy t.upper),
    sortBy_eq_self (pairwise_sortBy t.lower)]

theorem distinct_sorted (h : t.Distinct) : t.sorted.Distinct :=
  ⟨(sortBy_perm compare t.upper).nodup_iff.mpr h.1, (sortBy_perm compare t.lower).nodup_iff.mpr h.2⟩

theorem sign_sorted (t : Tensor) : t.sorted.sign = .plus := by
  rw [sign, sorted, sortingSign_of_ascending (pairwise_sortBy t.upper),
    sortingSign_of_ascending (pairwise_sortBy t.lower)]
  rfl

/-- A tensor whose lists ascend without repetitions is canonical. -/
theorem isCanonical_of_ascending {t : Tensor}
    (hupper : t.upper.Pairwise fun i j => compare i j = .lt)
    (hlower : t.lower.Pairwise fun i j => compare i j = .lt) : t.IsCanonical := by
  have hle : ∀ {l : List Index}, (l.Pairwise fun i j => compare i j = .lt) →
      l.Pairwise fun i j => (compare i j).isLE := fun hl => hl.imp fun h => by simp [h]
  have hnodup : ∀ {l : List Index}, (l.Pairwise fun i j => compare i j = .lt) → l.Nodup :=
    fun hl => hl.imp fun h he => by simp [he] at h
  have hsorted : t.sorted = t := by
    rw [sorted, sortBy_eq_self (hle hupper), sortBy_eq_self (hle hlower)]
  cases hs : t.symmetry with
  | plain => exact isCanonical_of_plain hs
  | symmetric => rw [IsCanonical, canonical?_of_symmetric hs, hsorted]
  | antisymmetric =>
      have hsign : t.sign = .plus := hsorted ▸ t.sign_sorted
      rw [IsCanonical, canonical?_of_distinct hs ⟨hnodup hupper, hnodup hlower⟩, hsorted, hsign]

/-- The canonical form of a tensor is canonical. -/
theorem isCanonical_of_canonical? {s : Sign} {u : Tensor} (h : t.canonical? = some (s, u)) :
    u.IsCanonical := by
  cases hs : t.symmetry with
  | plain =>
      rw [canonical?_of_plain hs] at h
      cases h
      exact isCanonical_of_plain hs
  | symmetric =>
      rw [canonical?_of_symmetric hs] at h
      cases h
      rw [IsCanonical, canonical?_of_symmetric (t := t.sorted) hs, sorted_sorted]
  | antisymmetric =>
      by_cases hd : t.Distinct
      · rw [canonical?_of_distinct hs hd] at h
        cases h
        rw [IsCanonical, canonical?_of_distinct (t := t.sorted) hs (distinct_sorted hd),
          sorted_sorted, sign_sorted]
      · rw [canonical?_of_not_distinct hs hd] at h
        cases h

/-- The canonical form keeps everything but the order inside the lists. -/
theorem ladder_of_canonical? {s : Sign} {u : Tensor} (h : t.canonical? = some (s, u)) :
    u.ladder = t.ladder := by
  unfold canonical? at h
  split at h
  · cases h
    rfl
  · cases h
    rfl
  · split at h
    · cases h
      rfl
    · cases h

/-! ## The canonical form of a rearranged tensor -/

theorem canonical?_eq_none_iff (h : t.symmetry = .antisymmetric) :
    t.canonical? = none ↔ ¬t.Distinct := by
  by_cases hd : t.Distinct
  · simp [canonical?_of_distinct h hd, hd]
  · simp [canonical?_of_not_distinct h hd, hd]

theorem distinct_of_canonical? {s : Sign} {u : Tensor} (h : t.symmetry = .antisymmetric)
    (hu : t.canonical? = some (s, u)) : t.Distinct := by
  by_contra hd
  cases (canonical?_of_not_distinct h hd).symm.trans hu

/-- A rearranged antisymmetric tensor has the same sorted form; its sign is another one exactly when
the two permutations together are odd. -/
theorem exists_canonical?_permuted (h : t.symmetry = .antisymmetric) (hd : t.Distinct) :
    ∃ s, (t.permuted σ τ).canonical? = some (s, t.sorted) ∧
      (s ≠ t.sign ↔ Equiv.Perm.sign σ * Equiv.Perm.sign τ = -1) := by
  refine ⟨(t.permuted σ τ).sign, ?_, Sign.ne_iff_of_toRat_eq (toRat_sign_permuted hd)⟩
  rw [canonical?_of_distinct (t := t.permuted σ τ) h (distinct_permuted.mpr hd), sorted_permuted]

/-- The canonical form is the tensor with its places permuted. -/
theorem exists_permuted_of_canonical? {s : Sign} {u : Tensor} (h : t.canonical? = some (s, u)) :
    ∃ σ τ, u = t.permuted σ τ := by
  have hid : t = t.permuted 1 1 := by
    simp [permuted, SecondQuant.permuted]
  cases hs : t.symmetry with
  | plain =>
      rw [canonical?_of_plain hs] at h
      cases h
      exact ⟨1, 1, hid⟩
  | symmetric =>
      rw [canonical?_of_symmetric hs] at h
      cases h
      exact t.exists_sorted_eq_permuted
  | antisymmetric =>
      rw [canonical?_of_distinct hs (distinct_of_canonical? hs h)] at h
      cases h
      exact t.exists_sorted_eq_permuted

/-- **The canonical form sees a rearrangement by its sign only.**  Let the places of the upper and
of the lower list of a tensor be permuted.  If the tensor is antisymmetric, both tensors vanish
exactly when one of the lists repeats an index; otherwise both have the same canonical form, its
lists ascend strictly, and the two signs differ exactly when the signs of the permutations multiply
to -1.  If it is symmetric, both have the same canonical form, in ascending order and without a
sign.  Whatever the symmetry, a canonical form is a rearrangement of the tensor, and its own
canonical form, without a sign. -/
theorem canonical_rearranged (t : Tensor) (σ : Equiv.Perm (Fin t.upper.length))
    (τ : Equiv.Perm (Fin t.lower.length)) :
    (t.symmetry = .antisymmetric →
      ((t.permuted σ τ).canonical? = none ↔ t.canonical? = none) ∧
      (t.canonical? = none ↔ ¬t.upper.Nodup ∨ ¬t.lower.Nodup) ∧
      ∀ s u, t.canonical? = some (s, u) →
        (u.upper.Pairwise fun i j => compare i j = .lt) ∧
        (u.lower.Pairwise fun i j => compare i j = .lt) ∧
        ∃ s', (t.permuted σ τ).canonical? = some (s', u) ∧
          (s' ≠ s ↔ Equiv.Perm.sign σ * Equiv.Perm.sign τ = -1)) ∧
    (t.symmetry = .symmetric →
      ∃ u, t.canonical? = some (.plus, u) ∧ (t.permuted σ τ).canonical? = some (.plus, u) ∧
        (u.upper.Pairwise fun i j => (compare i j).isLE) ∧
        u.lower.Pairwise fun i j => (compare i j).isLE) ∧
    ∀ s u, t.canonical? = some (s, u) →
      (∃ σ' τ', u = t.permuted σ' τ') ∧ u.canonical? = some (.plus, u) := by
  refine ⟨fun h => ⟨?_, ?_, fun s u hu => ?_⟩, fun h => ?_, fun s u hu => ?_⟩
  · rw [canonical?_eq_none_iff h, canonical?_eq_none_iff (t := t.permuted σ τ) h, distinct_permuted]
  · rw [canonical?_eq_none_iff h, Distinct, not_and_or]
  · have hd := distinct_of_canonical? h hu
    rw [canonical?_of_distinct h hd] at hu
    cases hu
    exact ⟨strictlyAscending_sortBy hd.1, strictlyAscending_sortBy hd.2,
      exists_canonical?_permuted h hd⟩
  · exact ⟨t.sorted, canonical?_of_symmetric h,
      (canonical?_permuted_of_symmetric h).trans (canonical?_of_symmetric h),
      pairwise_sortBy t.upper, pairwise_sortBy t.lower⟩
  · exact ⟨exists_permuted_of_canonical? hu, isCanonical_of_canonical? hu⟩

/-- A tensor with three upper and two lower indices, and its sorted form. -/
def turnedTensor : Tensor :=
  .cNumber "h" [.dummy .general 3, .dummy .general 1, .dummy .general 2]
    [.dummy .virtual 1, .free .occupied 1] .antisymmetric

/-- The same tensor with the indices of both lists in ascending order. -/
def turnedTensorSorted : Tensor :=
  .cNumber "h" [.dummy .general 1, .dummy .general 2, .dummy .general 3]
    [.free .occupied 1, .dummy .virtual 1] .antisymmetric

/-- The exchange of the first and the last upper place. -/
def turnedTensorExchange : Equiv.Perm (Fin turnedTensor.upper.length) :=
  Equiv.swap ⟨0, by decide⟩ ⟨2, by decide⟩

/-- The upper list is sorted by a cycle and the lower one by an exchange, so there is a sign; it
disappears when two upper places are exchanged. -/
theorem canonical_rearranged_turnedTensor :
    turnedTensor.canonical? = some (.minus, turnedTensorSorted) ∧
      (turnedTensor.permuted turnedTensorExchange 1).canonical? =
        some (.plus, turnedTensorSorted) ∧
      turnedTensorSorted.canonical? = some (.plus, turnedTensorSorted) := by
  have hsign : Equiv.Perm.sign turnedTensorExchange *
      Equiv.Perm.sign (1 : Equiv.Perm (Fin turnedTensor.lower.length)) = -1 := by
    rw [turnedTensorExchange, Equiv.Perm.sign_swap (by decide), Equiv.Perm.sign_one, mul_one]
  have hturned : turnedTensor.canonical? = some (.minus, turnedTensorSorted) := by decide
  obtain ⟨hanti, _, hfixed⟩ := canonical_rearranged turnedTensor turnedTensorExchange 1
  obtain ⟨_, _, s', hs', hdiffers⟩ := (hanti rfl).2.2 _ _ hturned
  obtain rfl : s' = .plus := by
    cases s' with
    | plus => rfl
    | minus => exact absurd rfl (hdiffers.mpr hsign)
  exact ⟨hturned, hs', (hfixed _ _ hturned).2⟩

end Tensor

end SecondQuant
