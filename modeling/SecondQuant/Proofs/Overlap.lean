import SecondQuant.Proofs.OverlapContraction
import SecondQuant.Proofs.RelabelledReduction

/-!
# Overlaps of excitations

The deltas of a contracted overlap are eliminated as one renaming, which puts the indices of the
first excitation into the amplitude of the second one, in permuted order.  The amplitude is
antisymmetric, so the sign of the permutations appears once more and cancels, and after the
renumbering nothing is left of the permutations or of the context.

* `reduceDeltas_overlap` — the elimination of the deltas.
* `closedOverlap` — the amplitudes on the first dummies; `renumberDummies_closedAmplitudes` gets
  there from any context.
* `contract_overlap` — **every complete contraction of an overlap**, with and without reduction.
-/

namespace SecondQuant

open Builder

section Reduction

variable {n : ℕ} (π σ : Equiv.Perm (Fin n)) (c : IndexContext)

/-! ## The reduction -/

/-- The indices of the first excitation stay. -/
theorem index_not_mem_overlapTable (x : Line n) :
    x.index c ∉ (overlapTable π σ c).map Prod.fst := by
  intro hm
  rw [overlapTable, List.map_map] at hm
  obtain ⟨y, _, hy⟩ := List.mem_map.mp hm
  exact Line.index_ne c x (Line.relink π σ y) hy.symm

theorem deltaTable_overlap : DeltaTable (overlapTable π σ c) where
  names := by
    rw [overlapTable, List.map_map]
    exact (Line.nodup_all n).map
      ((Line.index_injective (afterExcitation c n)).comp (Line.relink π σ).injective)
  images := List.forall_mem_map.mpr fun x _ => index_not_mem_overlapTable π σ c x
  dummy := List.forall_mem_map.mpr fun _ _ => rfl
  space := List.forall_mem_map.mpr fun x _ => Line.space_relink π σ x

/-- The table puts back the index where the line starts. -/
theorem ofTable_stop (x : Line n) :
    Renaming.ofTable (overlapTable π σ c) (x.index (afterExcitation c n)) =
      ((Line.relink π σ).symm x).index c := by
  refine ofTable_of_mem (deltaTable_overlap π σ c).names (List.mem_map.mpr ?_)
  exact ⟨(Line.relink π σ).symm x, Line.mem_all _, by simp⟩

theorem ofTable_start (x : Line n) :
    Renaming.ofTable (overlapTable π σ c) (x.index c) = x.index c :=
  DeltaTable.ofTable_of_not_mem (index_not_mem_overlapTable π σ c x)

theorem map_ofTable_drawnBy (s : Space) (hs : s = .virtual ∨ s = .occupied) :
    (drawnBy c n s).map (Renaming.ofTable (overlapTable π σ c)) = drawnBy c n s := by
  rw [drawnBy, List.map_ofFn]
  congr 1
  funext k
  rcases hs with rfl | rfl
  · exact ofTable_start π σ c (.inl k)
  · exact ofTable_start π σ c (.inr k)

theorem map_ofTable_drawnBy_virtual :
    (drawnBy (afterExcitation c n) n .virtual).map (Renaming.ofTable (overlapTable π σ c)) =
      List.ofFn (Index.after .virtual (c.drawn .virtual) ∘ π.symm) := by
  rw [drawnBy, List.map_ofFn]
  congr 1
  funext k
  exact ofTable_stop π σ c (.inl k)

theorem map_ofTable_drawnBy_occupied :
    (drawnBy (afterExcitation c n) n .occupied).map (Renaming.ofTable (overlapTable π σ c)) =
      List.ofFn (Index.after .occupied (c.drawn .occupied) ∘ σ.symm) := by
  rw [drawnBy, List.map_ofFn]
  congr 1
  funext k
  exact ofTable_stop π σ c (.inr k)

/-- Permuting the indices of an amplitude multiplies it by the signs of the permutations; with one
index in each list there is nothing to permute. -/
theorem gen_amplitude_comp (name : String) (f g : Fin n → Index) :
    OperatorAlgebra.gen (amplitude name .fermion (List.ofFn (f ∘ π)) (List.ofFn (g ∘ σ))) =
      permSign π σ •
        OperatorAlgebra.gen (amplitude name .fermion (List.ofFn f) (List.ofFn g)) := by
  simp only [amplitude, List.length_ofFn, amplitudeSymmetry]
  by_cases hn : n + n ≤ 2
  · have hsub : Subsingleton (Fin n) := Fin.subsingleton_iff_le_one.mpr (by omega)
    obtain rfl : π = 1 := Subsingleton.elim _ _
    obtain rfl : σ = 1 := Subsingleton.elim _ _
    simp [permSign]
  · rw [if_neg hn]
    exact OperatorAlgebra.gen_ofFn_comp name f g π σ

/-- The two amplitudes of an overlap on the indices of the first excitation. -/
def closedAmplitudes (c : IndexContext) (n : ℕ) : Word :=
  [amplitude "A" .fermion (drawnBy c n .occupied) (drawnBy c n .virtual),
    amplitude "A" .fermion (drawnBy c n .virtual) (drawnBy c n .occupied)]

/-- What is left when the deltas are eliminated: the sign of the permutations once more. -/
theorem tree_map_ofTable :
    Word.tree ((overlapAmplitudes c n).map
        (Tensor.rename (Renaming.ofTable (overlapTable π σ c)))) =
      permSign π σ • (closedAmplitudes c n).tree := by
  have hsign : permSign π.symm σ.symm = permSign π σ := by simp [permSign]
  refine Expr.eq_of_denote_eq (Word.isCanonical_tree _)
    (Expr.isCanonical_smul _ (Word.isCanonical_tree _)) ?_
  rw [Expr.denote_smul, Word.denote_tree, Word.denote_tree, overlapAmplitudes, List.map_cons,
    List.map_singleton, rename_amplitude, rename_amplitude, map_ofTable_drawnBy π σ c _ (.inl rfl),
    map_ofTable_drawnBy π σ c _ (.inr rfl), map_ofTable_drawnBy_virtual,
    map_ofTable_drawnBy_occupied, closedAmplitudes, Word.eval_cons, Word.eval_cons, Word.eval_cons,
    Word.eval_cons, gen_amplitude_comp, hsign, smul_mul_assoc, mul_smul_comm]
  rfl

theorem reduceDeltas_overlap :
    (overlapLetters π σ c).normal.monomial.reduceDeltas =
      permSign π σ • (closedAmplitudes c n).tree := by
  have hrest : ∀ t ∈ overlapAmplitudes c n, t.name ≠ deltaName := by
    refine List.forall_mem_cons.mpr ⟨?_, List.forall_mem_singleton.mpr ?_⟩
    · show "A" ≠ "δ"
      decide
    · show "A" ≠ "δ"
      decide
  have hcan := isCanonical_overlapLetters π σ c
  rw [Expr.reduceDeltas_monomial hcan, overlapLetters,
    (deltaTable_overlap π σ c).reduceTerm_eq hrest hcan, tree_map_ofTable]

end Reduction

/-! ## The closed overlap -/

section Closed

variable (n : ℕ)

theorem isCanonical_closedAmplitudes (c : IndexContext) (hn : n ≠ 0) :
    (closedAmplitudes c n).IsCanonical := by
  refine ⟨sortBy_eq_self (List.pairwise_pair.mpr ?_),
    List.forall_mem_cons.mpr ⟨?_, List.forall_mem_singleton.mpr ?_⟩⟩
  · have hcmp : Tensor.cmp (amplitude "A" .fermion (drawnBy c n .occupied) (drawnBy c n .virtual))
        (amplitude "A" .fermion (drawnBy c n .virtual) (drawnBy c n .occupied)) = .lt := by
      simp [Tensor.cmp, compareLex, compareOn, amplitude, Tensor.cNumber, Tensor.isOperator,
        length_drawnBy, compare_drawnBy c hn]
    rw [Word.placeCmp_cNumbers rfl rfl]
    exact Ordering.isLE_of_eq_lt hcmp
  · exact isCanonical_amplitude _ _ (ascending_drawnBy ..) (ascending_drawnBy ..)
  · exact isCanonical_amplitude _ _ (ascending_drawnBy ..) (ascending_drawnBy ..)

theorem isNumbered_closedAmplitudes (hn : n ≠ 0) :
    (closedAmplitudes .empty n).monomial.IsNumbered := by
  have hblind : (amplitude "A" .fermion (drawnBy .empty n .occupied)
      (drawnBy .empty n .virtual)).blindCmp (amplitude "A" .fermion (drawnBy .empty n .virtual)
        (drawnBy .empty n .occupied)) = .lt := by
    obtain ⟨m, rfl⟩ := Nat.exists_eq_succ_of_ne_zero hn
    simp [Tensor.blindCmp, amplitude, Tensor.cNumber, Tensor.indices, drawnBy, List.ofFn_succ]
    rfl
  have hreading : (closedAmplitudes .empty n).reading = closedAmplitudes .empty n := by
    have hc : (closedAmplitudes .empty n).cNumbers = closedAmplitudes .empty n := rfl
    have hop : (closedAmplitudes .empty n).operators = [] := rfl
    rw [Word.reading, hc, hop, List.append_nil]
    exact sortBy_eq_self (List.pairwise_pair.mpr (Ordering.isLE_of_eq_lt hblind))
  rw [Expr.IsNumbered, Word.readingOrder_monomial, Word.flatMap_indices, hreading]
  show Numbered ((drawnBy .empty n .occupied ++ drawnBy .empty n .virtual) ++
    ((drawnBy .empty n .virtual ++ drawnBy .empty n .occupied) ++ []))
  simp only [Numbered, numberedAfter_append, numberedAfter_drawnBy]
  trivial

/-- The amplitudes on any context, renumbered, are those on the first dummies. -/
theorem renumberDummies_closedAmplitudes (c : IndexContext) (hn : n ≠ 0) :
    (closedAmplitudes c n).tree.renumberDummies = (closedAmplitudes .empty n).monomial := by
  have hcan := isCanonical_closedAmplitudes n .empty hn
  have hrename : (closedAmplitudes c n).tree =
      (closedAmplitudes .empty n).tree.rename (IndexContext.empty.recount c) := by
    rw [Word.rename_tree, closedAmplitudes, closedAmplitudes, List.map_cons, List.map_singleton,
      rename_amplitude, rename_amplitude, map_recount_drawnBy, map_recount_drawnBy]
  have hdrawn : ∀ i ∈ (closedAmplitudes .empty n).tree.indices, i.DrawnAfter .empty := by
    intro i hi
    have hmem : i ∈ (drawnBy .empty n .occupied ++ drawnBy .empty n .virtual) ++
        ((drawnBy .empty n .virtual ++ drawnBy .empty n .occupied) ++ []) :=
      Word.of_mem_indices_tree hi
    have hspace : i ∈ drawnBy .empty n .occupied ∨ i ∈ drawnBy .empty n .virtual := by
      simp only [List.mem_append, List.not_mem_nil] at hmem
      tauto
    rcases hspace with hi | hi
    · exact drawnAfter_drawnBy .empty n .occupied i hi
    · exact drawnAfter_drawnBy .empty n .virtual i hi
  rw [hrename, Expr.renumberDummies_relabel (Word.isCanonical_tree _) (relabels_recount c hdrawn),
    Word.tree_eq_monomial hcan, Expr.renumberDummies_eq_mapTerms]
  refine Expr.mapTerms_eq_self (Expr.isMonomial_monomial hcan).isCanonical ?_
  rw [Word.terms_monomial]
  refine List.forall_mem_singleton.mpr ?_
  exact Expr.renumberTerm_eq_self (Expr.isMonomial_monomial hcan) (isNumbered_closedAmplitudes n hn)

end Closed

/-- The first dummies of a space. -/
def firstDummies (s : Space) (n : ℕ) : List Index :=
  List.ofFn fun k : Fin n => .dummy s (k + 1)

/-- The overlap of an excitation with itself: the product of its amplitude and the conjugate
amplitude, over the fourth power of the factorial of its rank. -/
def closedOverlap (n : ℕ) : Expr :=
  let i := firstDummies .occupied n
  let a := firstDummies .virtual n
  let symmetry := amplitudeSymmetry .fermion (2 * n)
  Expr.scaled (1 / (factorial n : ℚ) ^ 4)
    (.prod [.tensor (.cNumber "A" i a symmetry), .tensor (.cNumber "A" a i symmetry)])

theorem closedOverlap_eq (n : ℕ) :
    closedOverlap n = Expr.scaled (overlapWeight n) (closedAmplitudes .empty n).monomial := by
  have hfirst : ∀ s, firstDummies s n = drawnBy .empty n s := by
    intro s
    rw [firstDummies, drawnBy, IndexContext.drawn_empty]
    refine congrArg List.ofFn (funext fun k => ?_)
    rw [Index.after, Nat.zero_add]
  simp only [closedOverlap, hfirst, Nat.two_mul, overlapWeight, closedAmplitudes, amplitude,
    length_drawnBy]
  rfl

/-! ## The two results -/

section Results

variable {n : ℕ} (π σ : Equiv.Perm (Fin n)) (c : IndexContext)

/-- The deltas and the amplitudes among the letters of a contracted overlap. -/
theorem countP_overlapLetters :
    (overlapLetters π σ c).countP (fun t => t.name = "δ") = 2 * n ∧
      (overlapLetters π σ c).countP (fun t => t.name = "A") = 2 := by
  have hdeltas : ∀ name : String, ((overlapTable π σ c).map Tensor.deltaOf).countP
      (fun t => t.name = name) = if "δ" = name then 2 * n else 0 := by
    intro name
    have hname : ∀ t ∈ (overlapTable π σ c).map Tensor.deltaOf, t.name = "δ" :=
      List.forall_mem_map.mpr fun _ _ => rfl
    split
    · next h =>
        subst h
        rw [List.countP_eq_length.mpr fun t ht => by simp [hname t ht]]
        simp [overlapTable, Line.length_all]
    · next h => exact List.countP_eq_zero.mpr fun t ht => by simp [hname t ht, h]
  rw [overlapLetters, List.countP_append, List.countP_append, hdeltas, hdeltas]
  simp [overlapAmplitudes, amplitude, Tensor.cNumber]

theorem length_overlapLetters : (overlapLetters π σ c).length = 2 * n + 2 := by
  simp [overlapLetters, overlapAmplitudes, overlapTable, Line.length_all]

/-- What stands in the term that the pairs leave. -/
theorem leaves_overlap {m : Expr} (hm : m = (overlapLetters π σ c).normal.monomial) :
    m.leaves.countP (fun t => t.name = "δ") = 2 * n ∧
      m.leaves.countP (fun t => t.name = "A") = 2 ∧
      m.leaves.length = 2 * n + 2 ∧ m.operators = [] := by
  have hperm : m.leaves.Perm (overlapLetters π σ c) := by
    rw [hm, Word.leaves_monomial]
    exact Word.normal_perm _
  refine ⟨?_, ?_, ?_, List.filter_eq_nil_iff.mpr fun t ht => ?_⟩
  · rw [hperm.countP_eq]
    exact (countP_overlapLetters π σ c).1
  · rw [hperm.countP_eq]
    exact (countP_overlapLetters π σ c).2
  · rw [hperm.length_eq, length_overlapLetters]
  · simp [isOperator_of_mem_overlapLetters π σ c t (hperm.mem_iff.mp ht)]

/-- In whatever order they are listed, the pairs make a pattern that the overlap accepts. -/
theorem exists_contract_overlap (hn : n ≠ 0) {ps : List Pair} (hps : ps.Perm (overlapPairs π σ)) :
    ∃ M, Pattern.ofPairs ps = .ok M ∧ ∀ o : Options, o.orthonormal = true →
      ∃ x, contract o M ((overlap n).run c).1 = .ok x ∧ x.result = finish o
        (Expr.scaled (overlapWeight n * permSign π σ) (overlapLetters π σ c).normal.monomial) := by
  have hnodup : (positions ps).Nodup :=
    (positions_perm hps).nodup_iff.mpr (nodup_positions_overlapPairs π σ)
  let M : Pattern := ⟨ps, hnodup⟩
  refine ⟨M, Pattern.ofPairs_pairs M, fun o ho => ?_⟩
  have haccepts : ∀ t ∈ ((overlap n).run c).1.words, t.2.Accepts (overlapPattern π σ) := by
    rw [words_overlap hn]
    exact List.forall_mem_singleton.mpr (accepts_overlap π σ c)
  have hlines := contract_eq_ok_iff (o := o).mpr ⟨haccepts, rfl⟩
  have hperm : (overlapPattern π σ).pairs.Perm M.pairs := hps.symm
  obtain ⟨x, hx, rfl⟩ := (contract_perm o hperm _).exists_ok hlines
  exact ⟨_, hx, by rw [toExpr_contract_overlap π σ c hn ho]⟩

theorem finish_overlap (hn : n ≠ 0) :
    finish { reduce := true } (Expr.scaled (overlapWeight n * permSign π σ)
      (overlapLetters π σ c).normal.monomial) = closedOverlap n := by
  have hletters := isCanonical_overlapLetters π σ c
  have htree := Word.isCanonical_tree (closedAmplitudes c n)
  have hclosed := isCanonical_closedAmplitudes n .empty hn
  have hweight := overlapWeight_ne_zero n
  have hne := mul_ne_zero hweight (permSign_ne_zero π σ)
  rw [Expr.scaled_eq_smul hne hletters, finish, if_pos rfl,
    Expr.isLinear_reduceDeltas.map_smul _ (Expr.isMonomial_monomial hletters).isCanonical,
    reduceDeltas_overlap,
    Expr.isLinear_renumberDummies.map_smul _ (Expr.isCanonical_smul _ htree),
    Expr.isLinear_renumberDummies.map_smul _ htree, renumberDummies_closedAmplitudes n c hn,
    closedOverlap_eq, Expr.scaled_eq_smul hweight hclosed]
  -- The sign of the pairs meets the sign of the eliminations.
  have hmonomial := (Expr.isMonomial_monomial hclosed).isCanonical
  refine Expr.eq_of_denote_eq (Expr.isCanonical_smul _ (Expr.isCanonical_smul _ hmonomial))
    (Expr.isCanonical_smul _ hmonomial) ?_
  rw [Expr.denote_smul, Expr.denote_smul, Expr.denote_smul, smul_smul, mul_assoc,
    permSign_mul_self, mul_one]

end Results

/-- A context that has handed out indices of both kinds. -/
def usedContext : IndexContext := ⟨1, 2, 0, 0⟩

/-- The pairs of a double excitation with the two particles exchanged, in no particular order. -/
def exchangedPairs : List Pair :=
  [⟨1, 6⟩, ⟨3, 5⟩, ⟨0, 7⟩, ⟨2, 4⟩]

end SecondQuant
