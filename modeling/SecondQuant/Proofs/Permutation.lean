import Mathlib.Data.List.Perm.Basic
import Mathlib.GroupTheory.Perm.Fin
import SecondQuant.Tensor

/-!
# Signs of rearrangements

`sortingSign` counts the pairs of a list that stand in the wrong order.  This file ties that count
to permutations: it is the sign of the permutation that sorts the list, and it changes by the sign
of every permutation that is applied to the list before.

* `permuted`, `exists_permuted` — a list whose places are permuted; every rearrangement of a list
  is of this form.
* `sortBy_congr`, `strictlyAscending_sortBy` — sorting forgets the order of a list, and what has no
  repetitions ascends strictly afterwards.
* `toRat_sortingSign_permuted` — a permutation of a list without repetitions multiplies its sign
  by the sign of the permutation.
* `toRat_sortingSign_of_ascending` — the sign of a rearranged ascending list is the sign of the
  permutation.
-/

namespace SecondQuant

variable {α : Type}

/-! ## Rearranged lists -/

/-- The members of a list in the order of a permutation of its places. -/
def permuted (l : List α) (σ : Equiv.Perm (Fin l.length)) : List α :=
  List.ofFn (l.get ∘ σ)

theorem permuted_perm (l : List α) (σ : Equiv.Perm (Fin l.length)) : (permuted l σ).Perm l := by
  have h := σ.ofFn_comp_perm l.get
  rwa [List.ofFn_get] at h

@[simp] theorem length_permuted (l : List α) (σ : Equiv.Perm (Fin l.length)) :
    (permuted l σ).length = l.length :=
  (permuted_perm l σ).length_eq

theorem forall₂_get_finRange (l : List α) :
    List.Forall₂ (fun a k => a = l.get k) l (List.finRange l.length) := by
  rw [List.forall₂_iff_get]
  refine ⟨by simp, fun k h₁ h₂ => ?_⟩
  simp

/-- Every rearrangement of a list permutes its places. -/
theorem exists_permuted {l l' : List α} (h : l'.Perm l) :
    ∃ σ : Equiv.Perm (Fin l.length), l' = permuted l σ := by
  obtain ⟨ks, hks, hperm⟩ := List.perm_comp_forall₂ h (forall₂_get_finRange l)
  have hlen : ks.length = l.length := by simpa using hperm.length_eq
  have hnodup : ks.Nodup := hperm.nodup_iff.mpr (List.nodup_finRange l.length)
  let f : Fin l.length → Fin l.length := fun k => ks.get (k.cast hlen.symm)
  have hf : Function.Injective f := fun i j hij => by
    have := List.nodup_iff_injective_get.mp hnodup hij
    simpa [Fin.ext_iff] using this
  refine ⟨Equiv.ofBijective f (Finite.injective_iff_bijective.mp hf), ?_⟩
  refine List.ext_get (by rw [length_permuted, h.length_eq]) ?_
  intro k h₁ h₂
  have hk : k < ks.length := hlen.symm ▸ h.length_eq ▸ h₁
  rw [(List.forall₂_iff_get.mp hks).2 k h₁ hk]
  simp [permuted, f]

/-! ## Sorting a rearranged list -/

/-- Sorting forgets the order in which a list was given. -/
theorem sortBy_congr {cmp : α → α → Ordering} [Std.TransCmp cmp] [Std.LawfulEqCmp cmp]
    {l l' : List α} (h : l.Perm l') : sortBy cmp l = sortBy cmp l' := by
  have hperm : (sortBy cmp l).Perm (sortBy cmp l') :=
    (sortBy_perm cmp l).trans (h.trans (sortBy_perm cmp l').symm)
  have hanti : ∀ a b : α, a ∈ sortBy cmp l → b ∈ sortBy cmp l' →
      (cmp a b).isLE → (cmp b a).isLE → a = b := fun a b _ _ hab hba =>
    Std.LawfulEqCmp.eq_of_compare (Std.OrientedCmp.isLE_antisymm hab hba)
  exact hperm.eq_of_pairwise hanti (pairwise_sortBy l) (pairwise_sortBy l')

/-- A list without repetitions is sorted into a strictly ascending one. -/
theorem strictlyAscending_sortBy {cmp : α → α → Ordering} [Std.TransCmp cmp] [Std.LawfulEqCmp cmp]
    {l : List α} (h : l.Nodup) : (sortBy cmp l).Pairwise fun a b => cmp a b = .lt := by
  have hnodup : (sortBy cmp l).Nodup := (sortBy_perm cmp l).nodup_iff.mpr h
  refine (pairwise_sortBy l).imp₂ (fun a b hle hne => ?_) hnodup
  cases hab : cmp a b with
  | lt => rfl
  | eq => exact absurd (Std.LawfulEqCmp.eq_of_compare hab) hne
  | gt =>
      rw [hab] at hle
      cases hle

/-! ## Signs as numbers -/

namespace Sign

theorem toRat_mul (s t : Sign) : (s * t).toRat = s.toRat * t.toRat := by
  cases s with
  | plus => rw [plus_mul, toRat, one_mul]
  | minus =>
      cases t with
      | plus => rw [mul_plus, toRat, toRat, mul_one]
      | minus => rw [mul_self, toRat, toRat, neg_mul_neg, one_mul]

theorem toRat_ne_zero (s : Sign) : s.toRat ≠ 0 := by
  cases s <;> simp [toRat]

theorem toRat_eq_one {s : Sign} : s.toRat = 1 ↔ s = plus := by
  cases s with
  | plus => simp [toRat]
  | minus => exact ⟨fun h => absurd h (by norm_num [toRat]), fun h => nomatch h⟩

theorem toRat_injective : Function.Injective toRat := by
  intro s t h
  cases s <;> cases t
  · rfl
  · norm_num [toRat] at h
  · norm_num [toRat] at h
  · rfl

/-- Two signs differ exactly when one is the other times -1. -/
theorem ne_iff_of_toRat_eq {s t : Sign} {u : ℤˣ} (h : s.toRat = (u : ℤ) * t.toRat) :
    s ≠ t ↔ u = -1 := by
  rcases Int.units_eq_one_or u with rfl | rfl
  · have heq : s = t := toRat_injective (by simpa using h)
    simp [heq]
  · refine iff_of_true ?_ rfl
    rintro rfl
    cases s <;> norm_num [toRat] at h

theorem toRat_ofParity_succ (n : ℕ) : (ofParity (n + 1)).toRat = -(ofParity n).toRat := by
  have h : ofParity (n + 1) = minus * ofParity n := by
    rw [Nat.add_comm, ofParity_add]
    rfl
  rw [h, toRat_mul, toRat, neg_one_mul]

end Sign

/-! ## The sign of a rearrangement -/

section Ordered

variable [Ord α]

/-- Whether two members stand in order: 1 if they do, -1 if they do not, 0 if they are equal. -/
def orderSign (a b : α) : ℚ :=
  match compare a b with
  | .lt => 1
  | .eq => 0
  | .gt => -1

theorem sortingSign_cons (a : α) (l : List α) :
    sortingSign (a :: l) =
      Sign.ofParity (l.countP fun b => compare a b == .gt) * sortingSign l := by
  rw [sortingSign, inversions, Sign.ofParity_add, sortingSign]

/-- An ascending list has no inversions. -/
theorem sortingSign_of_ascending {l : List α} (h : l.Pairwise fun a b => (compare a b).isLE) :
    sortingSign l = .plus := by
  induction h with
  | nil => rfl
  | @cons a l ha _ ih =>
      have h0 : l.countP (fun b => compare a b == .gt) = 0 := by
        apply List.countP_eq_zero.mpr
        intro b hb
        have hab := ha b hb
        cases e : compare a b <;> simp_all
      rw [sortingSign_cons, h0, ih]
      rfl

theorem orderSign_swap [Std.OrientedOrd α] (a b : α) : orderSign a b = -orderSign b a := by
  unfold orderSign
  rw [Std.OrientedOrd.eq_swap (a := a) (b := b)]
  cases compare b a <;> simp

variable [Std.LawfulEqOrd α]

theorem toRat_ofParity_countP {a : α} {l : List α} (h : a ∉ l) :
    (Sign.ofParity (l.countP fun b => compare a b == .gt)).toRat = (l.map (orderSign a)).prod := by
  induction l with
  | nil => rfl
  | cons b l ih =>
      obtain ⟨hab, hl⟩ := List.ne_and_not_mem_of_not_mem_cons h
      rw [List.countP_cons, List.map_cons, List.prod_cons, ← ih hl]
      cases e : compare a b with
      | lt => simp [orderSign, e]
      | eq => exact absurd (Std.LawfulEqOrd.eq_of_compare e) hab
      | gt => simp [orderSign, e, Sign.toRat_ofParity_succ]

/-- The sign of a list without repetitions is the product over all its pairs. -/
theorem toRat_sortingSign_ofFn {n : ℕ} {f : Fin n → α} (hf : Function.Injective f) :
    (sortingSign (List.ofFn f)).toRat = ∏ i, ∏ j ∈ Finset.Ioi i, orderSign (f i) (f j) := by
  induction n with
  | zero => rfl
  | succ n ih =>
      have hsucc : Function.Injective fun i : Fin n => f i.succ :=
        hf.comp (Fin.succ_injective n)
      have hhead : f 0 ∉ List.ofFn fun i : Fin n => f i.succ := by
        rw [List.mem_ofFn]
        rintro ⟨i, hi⟩
        exact Fin.succ_ne_zero i (hf hi)
      rw [List.ofFn_succ, sortingSign_cons, Sign.toRat_mul, ih hsucc, toRat_ofParity_countP hhead,
        List.map_ofFn, List.prod_ofFn, Fin.prod_univ_succ, Fin.prod_Ioi_zero]
      simp only [Fin.prod_Ioi_succ, Function.comp_apply]

variable [Std.OrientedOrd α]

/-- A permutation of a list without repetitions multiplies its sign by the sign of the
permutation. -/
theorem toRat_sortingSign_permuted {l : List α} (h : l.Nodup) (σ : Equiv.Perm (Fin l.length)) :
    (sortingSign (permuted l σ)).toRat = (Equiv.Perm.sign σ : ℤ) * (sortingSign l).toRat := by
  have hget : Function.Injective l.get := List.nodup_iff_injective_get.mp h
  have hl : (sortingSign l).toRat = ∏ i, ∏ j ∈ Finset.Ioi i, orderSign (l.get i) (l.get j) := by
    rw [← toRat_sortingSign_ofFn hget, List.ofFn_get]
  rw [permuted, toRat_sortingSign_ofFn (hget.comp σ.injective), hl]
  exact σ.prod_Ioi_comp_eq_sign_mul_prod fun i j => orderSign_swap (l.get i) (l.get j)

/-- The sign of a rearranged ascending list is the sign of the permutation. -/
theorem toRat_sortingSign_of_ascending {l : List α} (h : l.Nodup)
    (ha : l.Pairwise fun a b => (compare a b).isLE) (σ : Equiv.Perm (Fin l.length)) :
    (sortingSign (permuted l σ)).toRat = (Equiv.Perm.sign σ : ℤ) := by
  rw [toRat_sortingSign_permuted h, sortingSign_of_ascending ha, Sign.toRat, mul_one]

end Ordered

end SecondQuant
