import Mathlib.Algebra.FreeMonoid.Basic
import Mathlib.Algebra.MonoidAlgebra.Basic
import Mathlib.Data.Multiset.Basic
import SecondQuant.Proofs.NormalWord
import SecondQuant.Proofs.OperatorAlgebra

/-!
# The normal form theorem

Two trees have the same canonical form exactly when they denote the same element of the algebra of
tensors.  One direction is that the canonical form keeps the value.  For the other one the canonical
words are shown to be linearly independent: the algebra is mapped to the monoid algebra of pairs of
a multiset of c-numbers and a string of operators, where each canonical word has a place of its own.

* `Word.key`, `Word.normal_eq_of_key` — the place of a word.
* `Coordinates.lawful` — sending a tensor to the place of its canonical form obeys the relations.
* `WordSum.eq_of_eval_gen` — canonical sums of words with the same value are the same list.
* `Expr.canonical_eq_iff_denote_eq` — the normal form theorem.
-/

namespace SecondQuant

/-! ## Places -/

/-- A multiset of c-numbers and a string of operators. -/
abbrev Place := Multiplicative (Multiset Tensor) × FreeMonoid Tensor

namespace Word

/-- The multiset of the c-numbers of a word and the string of its operators. -/
def key (w : Word) : Place :=
  (Multiplicative.ofAdd (w.cNumbers : Multiset Tensor), FreeMonoid.ofList w.operators)

theorem key_append (u v : Word) : key (u ++ v) = key u * key v := by
  simp only [key, cNumbers, operators, List.filter_append, ← Multiset.coe_add, ofAdd_add,
    FreeMonoid.ofList_append, Prod.mk_mul_mk]

theorem key_cons (t : Tensor) (w : Word) : key (t :: w) = key [t] * key w :=
  key_append [t] w

/-- Words at the same place have the same normal form. -/
theorem normal_eq_of_key {u v : Word} (h : key u = key v) : u.normal = v.normal := by
  obtain ⟨hc, ho⟩ := Prod.mk.inj h
  exact normal_congr (Multiset.coe_eq_coe.mp (Multiplicative.ofAdd.injective hc))
    (FreeMonoid.ofList.injective ho)

theorem key_injOn {u v : Word} (hu : u.normal = u) (hv : v.normal = v) (h : key u = key v) :
    u = v := by
  rw [← hu, normal_eq_of_key h, hv]

/-- A c-number commutes with every word. -/
theorem commute_key {s : Tensor} (hs : s.isOperator = false) (w : Word) :
    Commute (key [s]) (key w) := by
  have h1 : operators [s] = [] := by rw [operators_cons, hs]; rfl
  have h2 : (key [s]).2 = 1 := by rw [key, h1]; rfl
  exact Prod.ext (mul_comm _ _) (by rw [Prod.snd_mul, Prod.snd_mul, h2, one_mul, mul_one])

end Word

/-! ## Coordinates -/

/-- The algebra in which every place is a basis element. -/
abbrev PlaceAlgebra := MonoidAlgebra ℚ Place

namespace Coordinates

/-- The basis element at the place of a tensor. -/
noncomputable def basis (t : Tensor) : PlaceAlgebra :=
  MonoidAlgebra.single (Word.key [t]) 1

/-- A tensor in coordinates: its signed canonical form. -/
noncomputable def ofTensor (t : Tensor) : PlaceAlgebra :=
  WordSum.eval basis t.canonicalWords

theorem eval_basis (w : Word) : w.eval basis = MonoidAlgebra.single w.key 1 := by
  induction w with
  | nil => rfl
  | cons t w ih =>
      rw [Word.eval_cons, ih, basis, MonoidAlgebra.single_mul_single, ← Word.key_cons, one_mul]

theorem commute_basis : CNumbersCommute basis := fun _ t hs =>
  MonoidAlgebra.single_commute_single (Word.commute_key hs [t]) (Commute.one_left 1)

/-- Coordinates obey the relations of the algebra. -/
theorem lawful : Lawful ofTensor :=
  lawful_canonicalWords commute_basis

theorem eval_ofTensor {w : Word} (h : ∀ t ∈ w, t.IsCanonical) :
    w.eval ofTensor = MonoidAlgebra.single w.key 1 := by
  have hmap : w.map ofTensor = w.map basis :=
    List.map_congr_left fun t ht => eval_canonicalWords_of_isCanonical (h t ht)
  rw [Word.eval, hmap, ← Word.eval, eval_basis]

/-- The coordinate of a canonical sum at the place of a normal word is the coefficient of the
word. -/
theorem coeff_eval {p : WordSum} (hp : ∀ t ∈ p, t.2.IsCanonical) {w : Word}
    (hw : w.normal = w) : (p.eval ofTensor).coeff w.key = Combination.coefficient w p := by
  induction p with
  | nil => rfl
  | cons t p ih =>
      obtain ⟨ht, hp⟩ := List.forall_mem_cons.mp hp
      rw [WordSum.eval_cons, eval_ofTensor ht.2, MonoidAlgebra.coeff_add, Finsupp.add_apply, ih hp,
        MonoidAlgebra.coeff_smul_apply, MonoidAlgebra.coeff_single, Combination.coefficient_cons,
        Combination.contribution]
      by_cases h : t.2 = w
      · rw [if_pos h, h, Finsupp.single_eq_same, smul_eq_mul, mul_one]
      · have hkey : t.2.key ≠ w.key := fun hk => h (Word.key_injOn ht.1 hw hk)
        rw [if_neg h, Finsupp.single_eq_of_ne hkey.symm, smul_zero]

end Coordinates

/-! ## Uniqueness -/

/-- Canonical sums of words with the same value are the same list. -/
theorem WordSum.eq_of_eval_gen {p q : WordSum} (hp : p.IsCanonical) (hq : q.IsCanonical)
    (h : p.eval OperatorAlgebra.gen = q.eval OperatorAlgebra.gen) : p = q := by
  have hcoord : p.eval Coordinates.ofTensor = q.eval Coordinates.ofTensor := by
    have hφ := congrArg (OperatorAlgebra.lift Coordinates.ofTensor Coordinates.lawful) h
    simpa only [WordSum.map_eval, OperatorAlgebra.lift_gen] using hφ
  refine Combination.eq_of_coefficient hp.1 hq.1 ?_
  intro w
  by_cases hw : w.normal = w
  · rw [← Coordinates.coeff_eval hp.2 hw, hcoord, Coordinates.coeff_eval hq.2 hw]
  · have hne : ∀ {r : WordSum}, r.IsCanonical → ∀ t ∈ r, t.2 ≠ w := fun hr t ht e =>
      hw (e ▸ (hr.2 t ht).1)
    rw [Combination.coefficient_eq_zero (hne hp), Combination.coefficient_eq_zero (hne hq)]

namespace Expr

theorem isCanonical_canonicalWords_expand (e : Expr) :
    (e.expand Tensor.canonicalWords).IsCanonical :=
  isCanonical_expand fun _ _ _ hs => Tensor.isCanonical_of_mem_canonicalWords hs

theorem eval_gen_expand (e : Expr) :
    (e.expand Tensor.canonicalWords).eval OperatorAlgebra.gen = e.denote := by
  rw [eval_expand OperatorAlgebra.lawful_gen.commute, denote]
  simp only [eval_canonicalWords OperatorAlgebra.lawful_gen]

/-- **The normal form theorem.**  Two trees have the same canonical form exactly when they denote
the same element of the algebra of tensors, and the canonical form of a tree denotes what the tree
does. -/
theorem canonical_eq_iff_denote_eq (d e : Expr) :
    (d.canonical = e.canonical ↔ d.denote = e.denote) ∧ e.canonical.denote = e.denote := by
  refine ⟨⟨fun h => ?_, fun h => ?_⟩, denote_canonical e⟩
  · rw [← denote_canonical d, h, denote_canonical e]
  · have hwords : d.expand Tensor.canonicalWords = e.expand Tensor.canonicalWords := by
      refine WordSum.eq_of_eval_gen (isCanonical_canonicalWords_expand d)
        (isCanonical_canonicalWords_expand e) ?_
      rw [eval_gen_expand, eval_gen_expand, h]
    rw [canonical, hwords, ← canonical]

end Expr

end SecondQuant
