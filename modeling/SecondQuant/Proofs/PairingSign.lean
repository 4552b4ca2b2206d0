import SecondQuant.Proofs.ExchangeSign
import SecondQuant.Proofs.OperatorAlgebra

/-!
# Signs of pairings

Pairs that do not cross cost no exchange.  Every other way to pair the same operators permutes the
places that are paired, and the sign of its listing is the sign of that permutation; an
antisymmetric tensor whose indices are permuted likewise changes by the same sign.

* `Pair.Nests`, `sortingSign_positions_of_nests` — pairs that do not cross have no sign.
* `toRat_sortingSign_map_perm` — listing the members of a finite type after a permutation.
* `pairUp`, `toRat_sortingSign_pairUp` — **the sign of pairs whose right ends are permuted**.
* `OperatorAlgebra.gen_ofFn_comp` — permuting the indices of an antisymmetric tensor.
-/

namespace SecondQuant

/-! ## Pairs that do not cross -/

/-- Whether a pair encloses both positions of another one or neither of them. -/
def Pair.Nests (p q : Pair) : Prop :=
  p.encloses q.left = p.encloses q.right

/-- A pair encloses an even number of the positions of pairs that it does not cross. -/
theorem Pair.even_countP_encloses {p : Pair} {ps : List Pair} (h : ∀ q ∈ ps, p.Nests q) :
    (positions ps).countP p.encloses % 2 = 0 := by
  induction ps with
  | nil => rfl
  | cons q ps ih =>
      obtain ⟨hq, hps⟩ := List.forall_mem_cons.mp h
      have hrest := ih hps
      have hq : p.encloses q.left = p.encloses q.right := hq
      rw [positions, List.countP_cons, List.countP_cons, hq]
      split_ifs <;> omega

/-- Pairs that are written from left to right and do not cross have no sign. -/
theorem sortingSign_positions_of_nests {ps : List Pair} (hnodup : (positions ps).Nodup)
    (hforward : ∀ p ∈ ps, p.left < p.right) (hnests : ps.Pairwise Pair.Nests) :
    sortingSign (positions ps) = .plus := by
  induction ps with
  | nil => rfl
  | cons p ps ih =>
      obtain ⟨hl, hnodup⟩ := List.nodup_cons.mp hnodup
      obtain ⟨hr, hnodup⟩ := List.nodup_cons.mp hnodup
      obtain ⟨hp, hps⟩ := List.forall_mem_cons.mp hforward
      obtain ⟨hpn, hnests⟩ := List.pairwise_cons.mp hnests
      have hl : p.left ∉ positions ps := fun hm => hl (List.mem_cons_of_mem _ hm)
      have hexchanges : p.exchanges (positions ps) % 2 = 0 := by
        have heven := Pair.even_countP_encloses hpn
        have hdir : p.isReversed = false := by simp [Pair.isReversed, hp.le]
        simp [Pair.exchanges, hdir, heven]
      rw [positions, sortingSign_cons_cons hl hr, ih hnodup hps hnests,
        Sign.ofParity_of_even hexchanges]
      rfl

/-! ## Listings after a permutation -/

section Listing

variable {α : Type}

section Ordered

variable [Ord α] [Std.OrientedOrd α] [Std.LawfulEqOrd α]

/-- Listing different members after a permutation multiplies the sign by that of the
permutation. -/
theorem toRat_sortingSign_ofFn_comp {n : ℕ} {f : Fin n → α} (hf : Function.Injective f)
    (π : Equiv.Perm (Fin n)) :
    (sortingSign (List.ofFn (f ∘ π))).toRat =
      (Equiv.Perm.sign π : ℤ) * (sortingSign (List.ofFn f)).toRat := by
  rw [toRat_sortingSign_ofFn (hf.comp π.injective), toRat_sortingSign_ofFn hf]
  exact π.prod_Ioi_comp_eq_sign_mul_prod fun i j => orderSign_swap (f i) (f j)

/-- The same for a list that runs through a finite type. -/
theorem toRat_sortingSign_map_perm {ι : Type} [Fintype ι] [DecidableEq ι] {l : List ι}
    (hnodup : l.Nodup) (hall : ∀ x, x ∈ l) {f : ι → α} (hf : Function.Injective f)
    (φ : Equiv.Perm ι) :
    (sortingSign (l.map (f ∘ φ))).toRat =
      (Equiv.Perm.sign φ : ℤ) * (sortingSign (l.map f)).toRat := by
  let e : Fin l.length ≃ ι := hnodup.getEquivOfForallMemList l hall
  have hlist : ∀ g : ι → α, l.map g = List.ofFn (g ∘ e) := by
    intro g
    conv_lhs => rw [← List.ofFn_get l, List.map_ofFn]
    rfl
  have hcomp : (f ∘ φ) ∘ e = (f ∘ e) ∘ e.symm.permCongr φ := by
    funext k
    simp
  rw [hlist, hlist, hcomp, toRat_sortingSign_ofFn_comp (hf.comp e.injective),
    Equiv.Perm.sign_permCongr]

end Ordered

/-- A list that is given place by place, after a permutation of its places. -/
theorem exists_permuted_ofFn {n : ℕ} (f : Fin n → α) (π : Equiv.Perm (Fin n)) :
    ∃ τ : Equiv.Perm (Fin (List.ofFn f).length),
      List.ofFn (f ∘ π) = permuted (List.ofFn f) τ ∧
      Equiv.Perm.sign τ = Equiv.Perm.sign π := by
  have hn : n = (List.ofFn f).length := List.length_ofFn.symm
  refine ⟨(finCongr hn).permCongr π, ?_, Equiv.Perm.sign_permCongr _ _⟩
  refine List.ext_get (by simp) fun k h₁ h₂ => ?_
  simp [permuted]

end Listing

/-! ## Permuted ends -/

section Ends

variable {ι : Type} {l : List ι} {start stop : ι → ℕ}

/-- The pairs that join two positions for each member of a list. -/
def pairUp (l : List ι) (start stop : ι → ℕ) : List Pair :=
  l.map fun x => ⟨start x, stop x⟩

/-- The left and the right end of each member of a list. -/
def ends (l : List ι) : List (ι ⊕ ι) :=
  l.flatMap fun x => [.inl x, .inr x]

theorem mem_ends {x : ι ⊕ ι} : x ∈ ends l ↔ x.elim id id ∈ l := by
  rcases x with x | x <;> simp [ends]

theorem nodup_ends (h : l.Nodup) : (ends l).Nodup := by
  induction l with
  | nil => exact List.nodup_nil
  | cons x l ih =>
      obtain ⟨hx, hl⟩ := List.nodup_cons.mp h
      show (Sum.inl x :: Sum.inr x :: ends l).Nodup
      simp [mem_ends, hx, ih hl]

theorem positions_pairUp :
    positions (pairUp l start stop) = (ends l).map (Sum.elim start stop) := by
  induction l with
  | nil => rfl
  | cons x l ih =>
      show start x :: stop x :: positions (pairUp l start stop) = _
      rw [ih]
      rfl

theorem nodup_positions_pairUp (hnodup : l.Nodup)
    (hinj : Function.Injective (Sum.elim start stop)) :
    (positions (pairUp l start stop)).Nodup := by
  rw [positions_pairUp]
  exact (nodup_ends hnodup).map hinj

/-- Permuting the right ends is a permutation of all ends. -/
theorem sumElim_comp_perm (θ : Equiv.Perm ι) :
    Sum.elim start (stop ∘ θ) = Sum.elim start stop ∘ Equiv.Perm.sumCongr 1 θ := by
  funext x
  rcases x with x | x <;> rfl

theorem nodup_positions_pairUp_comp (hnodup : l.Nodup)
    (hinj : Function.Injective (Sum.elim start stop)) (θ : Equiv.Perm ι) :
    (positions (pairUp l start (stop ∘ θ))).Nodup := by
  refine nodup_positions_pairUp hnodup ?_
  rw [sumElim_comp_perm]
  exact hinj.comp (Equiv.Perm.sumCongr 1 θ).injective

/-- Permuting the right ends multiplies the sign of a pairing by that of the permutation. -/
theorem toRat_sortingSign_pairUp [Fintype ι] [DecidableEq ι] (hnodup : l.Nodup)
    (hall : ∀ x, x ∈ l) (hinj : Function.Injective (Sum.elim start stop)) (θ : Equiv.Perm ι) :
    (sortingSign (positions (pairUp l start (stop ∘ θ)))).toRat =
      (Equiv.Perm.sign θ : ℤ) * (sortingSign (positions (pairUp l start stop))).toRat := by
  rw [positions_pairUp, positions_pairUp, sumElim_comp_perm,
    toRat_sortingSign_map_perm (nodup_ends hnodup) (fun x => mem_ends.mpr (hall _)) hinj,
    Equiv.Perm.sign_sumCongr, Equiv.Perm.sign_one, one_mul]

end Ends

/-! ## Antisymmetric tensors -/

/-- Permuting the indices of an antisymmetric tensor multiplies it by the signs of the
permutations. -/
theorem OperatorAlgebra.gen_ofFn_comp (name : String) {m n : ℕ} (f : Fin m → Index)
    (g : Fin n → Index) (π : Equiv.Perm (Fin m)) (σ : Equiv.Perm (Fin n)) :
    gen (.cNumber name (List.ofFn (f ∘ π)) (List.ofFn (g ∘ σ)) .antisymmetric) =
      (((Equiv.Perm.sign π * Equiv.Perm.sign σ : ℤˣ) : ℤ) : ℚ) •
        gen (.cNumber name (List.ofFn f) (List.ofFn g) .antisymmetric) := by
  obtain ⟨π', hπ, hπsign⟩ := exists_permuted_ofFn f π
  obtain ⟨σ', hσ, hσsign⟩ := exists_permuted_ofFn g σ
  rw [← hπsign, ← hσsign, hπ, hσ]
  exact lawful_gen.antisymmetric
    (.cNumber name (List.ofFn f) (List.ofFn g) .antisymmetric) π' σ' rfl

end SecondQuant
