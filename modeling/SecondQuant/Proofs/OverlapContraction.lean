import SecondQuant.Proofs.DeltaTables
import SecondQuant.Proofs.OverlapChain
import SecondQuant.Proofs.PairOrder

/-!
# The contraction of an overlap

A complete contraction of an overlap joins the particles and the holes of its two halves, each
under a permutation.  All operators are used up, so a single term is left: the two amplitudes and a
delta for each line, with the sign of the permutations.

* `overlapPairs`, `overlapPattern` — the pairs of two permutations.
* `toRat_sortingSign_overlapPairs` — their sign.
* `overlapTable` — the deltas as a table that replaces the indices of the second half.
* `toExpr_contract_overlap` — **the contraction of an overlap is a single word**.
-/

namespace SecondQuant

open Builder

/-! ## The pattern -/

/-- The pairs of two permutations, from left to right: the annihilation of the particle at each
place with the creation of the one at its image under the first permutation, and the creation of the
hole at each place with the annihilation of the one at its image under the second. -/
def overlapPairs {n : ℕ} (π σ : Equiv.Perm (Fin n)) : List Pair :=
  (List.finRange n).map (fun k => ⟨2 * n - 1 - k, 2 * n + π k⟩) ++
    (List.finRange n).map (fun k => ⟨k, 4 * n - 1 - σ k⟩)

section Pattern

variable {n : ℕ} (π σ : Equiv.Perm (Fin n)) (c : IndexContext)

theorem overlapPairs_eq :
    overlapPairs π σ = pairUp (Line.all n) Line.start (Line.stop ∘ Line.relink π σ) := by
  rw [pairUp, Line.all, List.map_append, List.map_map, List.map_map]
  rfl

theorem mem_positions_overlapPairs {k : ℕ} : k ∈ positions (overlapPairs π σ) ↔ k < 4 * n := by
  simp only [overlapPairs_eq, pairUp, mem_positions, List.mem_map, exists_exists_and_eq_and,
    Function.comp_apply]
  constructor
  · rintro ⟨x, _, rfl | rfl⟩
    · have hx := x.start_lt
      show x.start < 4 * n
      omega
    · exact (Line.relink π σ x).le_stop.2
  · intro hk
    obtain ⟨x, rfl | rfl⟩ := Line.exists_end hk
    · exact ⟨x, x.mem_all, .inl rfl⟩
    · exact ⟨(Line.relink π σ).symm x, Line.mem_all _, .inr (by simp)⟩

theorem nodup_positions_overlapPairs : (positions (overlapPairs π σ)).Nodup := by
  rw [overlapPairs_eq]
  exact nodup_positions_pairUp_comp (Line.nodup_all n) Line.ends_injective _

/-- The pattern of these pairs. -/
def overlapPattern : Pattern :=
  ⟨overlapPairs π σ, nodup_positions_overlapPairs π σ⟩

/-- The sign of two permutations. -/
def permSign : ℚ :=
  ((Equiv.Perm.sign π * Equiv.Perm.sign σ : ℤˣ) : ℤ)

theorem permSign_mul_self : permSign π σ * permSign π σ = 1 := by
  have h := Int.units_mul_self (Equiv.Perm.sign π * Equiv.Perm.sign σ)
  rw [permSign, ← Int.cast_mul, ← Units.val_mul, h]
  simp

theorem permSign_ne_zero : permSign π σ ≠ 0 :=
  left_ne_zero_of_mul (b := permSign π σ) (by simp [permSign_mul_self])

/-- The sign of the pairs is that of the two permutations. -/
theorem toRat_sortingSign_overlapPairs :
    (sortingSign (positions (overlapPairs π σ))).toRat = permSign π σ := by
  rw [overlapPairs_eq, toRat_sortingSign_pairUp (Line.nodup_all n) Line.mem_all
    Line.ends_injective, Line.sortingSign_all, Line.relink, Equiv.Perm.sign_sumCongr]
  simp [Sign.toRat, permSign]

/-! ## The contraction -/

/-- The link of a line. -/
def overlapLink (x : Line n) : Link :=
  ⟨⟨x.start, (Line.relink π σ x).stop⟩, .elementary ⟨.fermion, x.action⟩ (x.index c),
    .elementary ⟨.fermion, x.action.adjoint⟩ ((Line.relink π σ x).index (afterExcitation c n))⟩

theorem link?_overlap (x : Line n) :
    link? (overlapChain c n) ⟨x.start, (Line.relink π σ x).stop⟩ = some (overlapLink π σ c x) := by
  rw [link?, getElem?_start, getElem?_stop, Line.action_relink]
  rfl

theorem contracts_overlap : (overlapPattern π σ).contracts (overlapWord c n).chain = true := by
  rw [chain_overlapWord, Pattern.contracts, List.all_eq_true]
  show ∀ p ∈ overlapPairs π σ, _
  rw [overlapPairs_eq, pairUp]
  refine List.forall_mem_map.mpr fun x _ => ?_
  refine Pair.contracts_iff.mpr ⟨_, _, getElem?_start c x, getElem?_stop c _, ?_⟩
  have hspace : (x.index c).space.meet? ((Line.relink π σ x).index (afterExcitation c n)).space =
      some x.space := by
    show x.space.meet? (Line.relink π σ x).space = _
    rw [Line.space_relink, Space.meet?_self]
  simp [ChainOperator.contracts, ChainOperator.elementary, hspace, Line.action_relink]

theorem accepts_overlap : (overlapWord c n).Accepts (overlapPattern π σ) := by
  refine ⟨wellFormed_overlapWord c n, fun k hk => ?_⟩
  rw [chain_overlapWord, length_overlapChain]
  exact (mem_positions_overlapPairs π σ).mp hk

theorem remaining_overlap : remaining (overlapChain c n) (overlapPattern π σ) = [] := by
  apply remaining_eq_nil
  intro k hk
  rw [length_overlapChain] at hk
  exact (mem_positions_overlapPairs π σ).mpr hk

/-- The table that replaces the indices of the second excitation by those of the first one. -/
def overlapTable : List (Index × Index) :=
  (Line.all n).map fun x => ((Line.relink π σ x).index (afterExcitation c n), x.index c)

theorem contractionTensors_overlap :
    contractionTensors true (overlapChain c n) (overlapPairs π σ) =
      (overlapTable π σ c).map Tensor.deltaOf := by
  have hvalue : ∀ x : Line n, (overlapLink π σ c x).tensor? true =
      some (Tensor.deltaOf ((Line.relink π σ x).index (afterExcitation c n), x.index c)) := by
    intro x
    have hlt := Line.compare_index c (Line.space_relink π σ x).symm
    have hne := Line.index_ne c x (Line.relink π σ x)
    simp [Link.tensor?, overlapLink, ChainOperator.elementary, Tensor.between, Tensor.deltaOf, hlt,
      hne]
  rw [contractionTensors_eq, overlapPairs_eq, pairUp, overlapTable, List.map_map,
    List.filterMap_map, ← List.filterMap_eq_map]
  refine List.filterMap_congr fun x _ => ?_
  show Pair.tensor? true _ _ = _
  rw [Pair.tensor?]
  show (link? (overlapChain c n) ⟨x.start, (Line.relink π σ x).stop⟩).bind _ = _
  rw [link?_overlap, Option.bind_some, hvalue]
  rfl

theorem contractionSign_overlap :
    ((overlapWord c n).contractionSign (overlapPattern π σ)).toRat = permSign π σ := by
  have hfermionic : (overlapPairs π σ).filter (Pair.isFermionic (overlapChain c n)) =
      overlapPairs π σ := by
    rw [List.filter_eq_self, overlapPairs_eq, pairUp]
    refine List.forall_mem_map.mpr fun x _ => ?_
    rw [Pair.isFermionic, getElem?_start]
    rfl
  have hused : uncontracted (fermionPositions (overlapChain c n)) (overlapPairs π σ) = [] := by
    rw [uncontracted, List.filter_eq_nil_iff]
    intro k hk
    obtain ⟨o, ho, _⟩ := mem_fermionPositions.mp hk
    have hlt := (List.getElem?_eq_some_iff.mp ho).1
    rw [length_overlapChain] at hlt
    simpa using (mem_positions_overlapPairs π σ).mpr hlt
  rw [Word.contractionSign_eq_wickSign (contracts_overlap π σ c), chain_overlapWord, wickSign,
    wickOrder]
  show (sortingSign (positions ((overlapPairs π σ).filter _) ++
    uncontracted _ (overlapPairs π σ))).toRat = _
  rw [hfermionic, hused, List.append_nil, toRat_sortingSign_overlapPairs]

/-- The letters that the pairs leave: the amplitudes and the deltas. -/
def overlapLetters : Word :=
  overlapAmplitudes c n ++ (overlapTable π σ c).map Tensor.deltaOf

theorem isOperator_of_mem_overlapLetters :
    ∀ t ∈ overlapLetters π σ c, t.isOperator = false :=
  List.forall_mem_append.mpr
    ⟨isOperator_of_mem_overlapAmplitudes c n, List.forall_mem_map.mpr fun _ _ => rfl⟩

theorem isCanonical_overlapLetters : (overlapLetters π σ c).normal.IsCanonical := by
  refine Word.built_normal (List.forall_mem_append.mpr
    ⟨isCanonical_of_mem_overlapAmplitudes c n, List.forall_mem_map.mpr fun _ _ => ?_⟩)
  exact Tensor.isCanonical_of_plain rfl

theorem contracted_overlap {o : Options} (ho : o.orthonormal = true) :
    (overlapWord c n).contracted o (overlapPattern π σ) = (overlapLetters π σ c).normal := by
  have hletters := isOperator_of_mem_overlapLetters π σ c
  have hc : (overlapLetters π σ c).cNumbers = overlapLetters π σ c :=
    List.filter_eq_self.mpr fun t ht => by simp [hletters t ht]
  have hop : (overlapLetters π σ c).operators = [] :=
    List.filter_eq_nil_iff.mpr fun t ht => by simp [hletters t ht]
  refine Word.normal_congr ?_ ?_
  · rw [Word.cNumbers_contractedLetters, chain_overlapWord, ho, hc]
    show List.Perm (_ ++ contractionTensors true _ (overlapPairs π σ)) _
    rw [contractionTensors_overlap]
    exact (cNumbers_overlapWord c n).append_right _
  · rw [Word.operators_contractedLetters, chain_overlapWord, remaining_overlap, hop]
    rfl

/-- A contracted overlap is a single word, with the sign of the two permutations. -/
theorem toExpr_contract_overlap (hn : n ≠ 0) {o : Options} (ho : o.orthonormal = true) :
    (((overlap n).run c).1.words.contract o (overlapPattern π σ)).toExpr =
      Expr.scaled (overlapWeight n * permSign π σ) (overlapLetters π σ c).normal.monomial := by
  rw [words_overlap hn, WordSum.toExpr_contract_singleton (overlapWeight_ne_zero n)
    (isCanonical_overlapWord c n) (contracts_overlap π σ c), contracted_overlap π σ c ho,
    contractionSign_overlap]

end Pattern

end SecondQuant
