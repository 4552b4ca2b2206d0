import SecondQuant.Proofs.Linearity
import SecondQuant.Proofs.ExchangeSign
import SecondQuant.Proofs.Wick

/-!
# Contracting in stages

A pattern may be contracted in two stages: some of its pairs first, and the others in what that
leaves, with their positions counted anew.  In between terms may merge or cancel, which changes
nothing, because contraction is linear; within one word the fermions that the second stage counts
are those that the first one has left.

* `zipIdx_remaining` — the operators that are left stand at the shifted positions.
* `Pattern.Staged` — a pattern and its two stages; what both contribute is what the pattern does.
* `Word.eval_contract_staged` — the two stages of one word.
* `contract_staged` — the two stages of an expression.
-/

namespace SecondQuant

/-! ## Operators that are left -/

/-- The operators that are left stand at the shifted positions. -/
theorem zipIdx_remaining (chain : List ChainOperator) (M : Pattern) :
    (remaining chain M).zipIdx =
      (chain.zipIdx.filter fun o => decide (o.2 ∉ positions M.pairs)).map
        fun o => (o.1, M.shift o.2) := by
  -- behind the first `n` operators counting starts at the shifted position of `n`
  have hfrom : ∀ (chain : List ChainOperator) (n : Nat),
      (((chain.zipIdx n).filter fun o => decide (o.2 ∉ positions M.pairs)).map Prod.fst).zipIdx
          (M.shift n) =
        ((chain.zipIdx n).filter fun o => decide (o.2 ∉ positions M.pairs)).map
          fun o => (o.1, M.shift o.2) := by
    intro chain
    induction chain with
    | nil => exact fun _ => rfl
    | cons o chain ih =>
        intro n
        rw [List.zipIdx_cons, List.filter_cons]
        by_cases hn : n ∈ positions M.pairs
        · rw [if_neg (by simpa using hn), ← ih (n + 1), Pattern.shift_succ_of_mem hn]
        · rw [if_pos (by simpa using hn), List.map_cons, List.zipIdx_cons, List.map_cons,
            ← ih (n + 1), Pattern.shift_succ_of_not_mem hn]
  have h := hfrom chain 0
  rwa [Pattern.shift_zero] at h

section Remaining

variable {chain : List ChainOperator} {M : Pattern}

/-- An operator that is left is found again at its shifted position. -/
theorem getElem?_remaining {k : Nat} (hk : k ∉ positions M.pairs) (hlt : k < chain.length) :
    (remaining chain M)[M.shift k]? = chain[k]? := by
  rw [List.getElem?_eq_getElem hlt, ← List.mk_mem_zipIdx_iff_getElem?, zipIdx_remaining]
  refine List.mem_map.mpr ⟨(chain[k], k), List.mem_filter.mpr ⟨?_, decide_eq_true hk⟩, rfl⟩
  exact List.mk_mem_zipIdx_iff_getElem?.mpr (List.getElem?_eq_getElem hlt)

theorem shift_lt_length_remaining {k : Nat} (hk : k ∉ positions M.pairs)
    (hlt : k < chain.length) : M.shift k < (remaining chain M).length := by
  have hget : (remaining chain M)[M.shift k]? = some chain[k] := by
    rw [getElem?_remaining hk hlt, List.getElem?_eq_getElem hlt]
  exact (List.getElem?_eq_some_iff.mp hget).1

theorem fermionPositions_remaining :
    fermionPositions (remaining chain M) =
      (uncontracted (fermionPositions chain) M.pairs).map M.shift := by
  rw [fermionPositions, zipIdx_remaining, fermionPositions, uncontracted, List.filter_map,
    List.filter_map, List.filter_filter, List.filter_filter, List.map_map, List.map_map]
  congr 1
  exact List.filter_congr fun o _ => Bool.and_comm _ _

end Remaining

/-! ## Two stages of a pattern -/

/-- Whether a pattern consists of a first stage and further pairs, which the second stage takes at
the positions that the first one leaves them. -/
structure Pattern.Staged (M M₁ M₂ : Pattern) (qs : List Pair) : Prop where
  pairs : M.pairs = M₁.pairs ++ qs
  shifted : M₂.pairs = qs.map (Pair.relabel M₁.shift)

namespace Pattern.Staged

variable {M M₁ M₂ : Pattern} {qs : List Pair} {chain : List ChainOperator}

theorem not_mem_first (h : M.Staged M₁ M₂ qs) :
    ∀ k ∈ positions qs, k ∉ positions M₁.pairs := by
  have hnodup := M.nodup
  rw [h.pairs, positions_append] at hnodup
  exact fun k hk hk₁ => List.disjoint_of_nodup_append hnodup hk₁ hk

theorem fits_first (h : M.Staged M₁ M₂ qs) {n : Nat} (hfit : M.Fits n) : M₁.Fits n := by
  rw [Pattern.Fits, h.pairs, positions_append] at hfit
  exact fun k hk => hfit k (List.mem_append_left _ hk)

theorem lt_of_mem (h : M.Staged M₁ M₂ qs) {n : Nat} (hfit : M.Fits n) :
    ∀ k ∈ positions qs, k < n := by
  rw [Pattern.Fits, h.pairs, positions_append] at hfit
  exact fun k hk => hfit k (List.mem_append_right _ hk)

theorem fits_second (h : M.Staged M₁ M₂ qs) (hfit : M.Fits chain.length) :
    M₂.Fits (remaining chain M₁).length := by
  rw [Pattern.Fits, h.shifted, positions_relabel]
  exact List.forall_mem_map.mpr fun k hk =>
    shift_lt_length_remaining (h.not_mem_first k hk) (h.lt_of_mem hfit k hk)

/-- The operators of the second stage are found at their shifted positions. -/
theorem foundAt (h : M.Staged M₁ M₂ qs) (hfit : M.Fits chain.length) :
    FoundAt M₁.shift chain (remaining chain M₁) qs :=
  fun k hk => getElem?_remaining (h.not_mem_first k hk) (h.lt_of_mem hfit k hk)

/-- All pairs contract when those of both stages do. -/
theorem contracts_eq (h : M.Staged M₁ M₂ qs) (hfit : M.Fits chain.length) :
    M.contracts chain = (M₁.contracts chain && M₂.contracts (remaining chain M₁)) := by
  rw [Pattern.contracts, Pattern.contracts, Pattern.contracts, h.pairs, h.shifted,
    List.all_append, (h.foundAt hfit).all_contracts]

/-- The second stage contributes the tensors of its pairs. -/
theorem contractionTensors_eq (h : M.Staged M₁ M₂ qs) (hfit : M.Fits chain.length)
    (orthonormal : Bool) :
    contractionTensors orthonormal chain M.pairs =
      contractionTensors orthonormal chain M₁.pairs ++
        contractionTensors orthonormal (remaining chain M₁) M₂.pairs := by
  rw [h.shifted, (h.foundAt hfit).contractionTensors_eq, h.pairs]
  simp only [contractionTensors, links, List.filterMap_append]

/-- What the second stage leaves is what the whole pattern leaves. -/
theorem remaining_remaining (h : M.Staged M₁ M₂ qs) :
    remaining (remaining chain M₁) M₂ = remaining chain M := by
  have hmem : ∀ k, k ∉ positions M₁.pairs →
      (M₁.shift k ∈ positions M₂.pairs ↔ k ∈ positions qs) := by
    intro k hk
    rw [h.shifted, positions_relabel, List.mem_map]
    constructor
    · rintro ⟨j, hj, heq⟩
      exact M₁.keepsOrder_shift.eq_of_eq (h.not_mem_first j hj) hk heq ▸ hj
    · exact fun hq => ⟨k, hq, rfl⟩
  have hkeep : ∀ o : ChainOperator × Nat,
      (decide (M₁.shift o.2 ∉ positions M₂.pairs) && decide (o.2 ∉ positions M₁.pairs)) =
        decide (o.2 ∉ positions M.pairs) := by
    intro o
    rw [Bool.eq_iff_iff, Bool.and_eq_true, decide_eq_true_eq, decide_eq_true_eq,
      decide_eq_true_eq, h.pairs, positions_append, List.mem_append, not_or, and_comm]
    exact and_congr_right fun hk => not_congr (hmem o.2 hk)
  rw [remaining, zipIdx_remaining, remaining, List.filter_map, List.filter_filter, List.map_map]
  exact congrArg _ (List.filter_congr fun o _ => hkeep o)

/-- The sign of the whole pattern is the product of the signs of its stages. -/
theorem linksSign_eq (h : M.Staged M₁ M₂ qs) (hfit : M.Fits chain.length)
    (hc : M.contracts chain = true) :
    linksSign (Live.ofChain chain) (links chain M.pairs) =
      linksSign (Live.ofChain chain) (links chain M₁.pairs) *
        linksSign (Live.ofChain (remaining chain M₁)) (links (remaining chain M₁) M₂.pairs) := by
  obtain ⟨hc₁, hc₂⟩ := Bool.and_eq_true_iff.mp ((h.contracts_eq hfit).symm.trans hc)
  have hqs : ∀ k ∈ positions (qs.filter (Pair.isFermionic chain)), k ∉ positions M₁.pairs :=
    fun k hk => h.not_mem_first k ((positions_sublist List.filter_sublist).subset hk)
  have hleft : ∀ k ∈ uncontracted (fermionPositions chain) M₁.pairs, k ∉ positions M₁.pairs :=
    fun k hk => (mem_uncontracted.mp hk).2
  rw [linksSign_ofChain hc, linksSign_ofChain hc₁, linksSign_ofChain hc₂, h.pairs, h.shifted,
    List.filter_append, exchangeSign_append, uncontracted_fermionic hc₁,
    (h.foundAt hfit).filter_isFermionic, fermionPositions_remaining,
    exchangeSign_relabel M₁.keepsOrder_shift hleft hqs]

end Pattern.Staged

/-! ## One word -/

namespace Word

variable {o : Options} {M M₁ M₂ : Pattern} {qs : List Pair} {w : Word}

/-- What the first stage leaves of a word accepts the second stage. -/
theorem accepts_contracted (h : M.Staged M₁ M₂ qs) (hw : w.Accepts M) :
    (w.contracted o M₁).Accepts M₂ := by
  refine ⟨wellFormed_contracted, ?_⟩
  rw [chain_contracted]
  exact h.fits_second hw.2

/-- Both stages together leave the word that the whole pattern leaves. -/
theorem contracted_contracted (h : M.Staged M₁ M₂ qs) (hw : w.Accepts M) :
    (w.contracted o M₁).contracted o M₂ = w.contracted o M := by
  refine normal_congr ?_ ?_
  · have hperm : (w.contracted o M₁).cNumbers.Perm
        (w.cNumbers ++ contractionTensors o.orthonormal w.chain M₁.pairs) := by
      rw [← cNumbers_contractedLetters]
      exact (normal_perm _).filter _
    rw [cNumbers_contractedLetters, cNumbers_contractedLetters, chain_contracted,
      h.contractionTensors_eq hw.2, ← List.append_assoc]
    exact hperm.append_right _
  · rw [operators_contractedLetters, operators_contractedLetters, chain_contracted,
      h.remaining_remaining]

theorem contractionSign_mul (h : M.Staged M₁ M₂ qs) (hw : w.Accepts M)
    (hc : M.contracts w.chain = true) :
    w.contractionSign M =
      w.contractionSign M₁ * (w.contracted o M₁).contractionSign M₂ := by
  rw [contractionSign, contractionSign, contractionSign, chain_contracted, h.linksSign_eq hw.2 hc]

/-- The second stage of what the first one makes of a word is worth what the whole pattern makes of
it. -/
theorem eval_contract_staged {A : Type} [Ring A] [Algebra ℚ A] (g : Tensor → A)
    (h : M.Staged M₁ M₂ qs) (hw : w.Accepts M) :
    Combination.eval (fun u => WordSum.eval g (u.contract o M₂)) (w.contract o M₁) =
      WordSum.eval g (w.contract o M) := by
  have hcontracts := h.contracts_eq hw.2
  have hsingle : ∀ (c : ℚ) (u : Word), WordSum.eval g [(c, u)] = c • u.eval g := fun c u => by
    rw [WordSum.eval_cons, WordSum.eval_nil, add_zero]
  cases hc₁ : M₁.contracts w.chain with
  | false =>
      rw [contract, hc₁, contract, hcontracts, hc₁]
      rfl
  | true =>
      rw [hc₁, Bool.true_and] at hcontracts
      rw [contract, if_pos hc₁, Combination.eval_cons, Combination.eval_nil, add_zero, contract,
        chain_contracted, contract, ← hcontracts]
      cases hc : M.contracts w.chain with
      | false => exact smul_zero _
      | true =>
          rw [if_pos rfl, if_pos rfl, hsingle, hsingle, smul_smul, contracted_contracted h hw,
            ← Sign.toRat_mul, ← contractionSign_mul h hw hc]

end Word

/-! ## Expressions -/

namespace WordSum

variable {o : Options} {M M₁ M₂ : Pattern} {qs : List Pair} {p : WordSum}

theorem accepts_of_mem_contract (h : M.Staged M₁ M₂ qs) (hp : ∀ t ∈ p, t.2.Accepts M) :
    ∀ t ∈ p.contract o M₁, t.2.Accepts M₂ := by
  apply Combination.mem_collect
  intro t ht
  obtain ⟨s, hs, ht⟩ := List.mem_flatMap.mp ht
  obtain ⟨r, hr, rfl⟩ := List.mem_map.mp ht
  unfold Word.contract at hr
  split at hr
  · obtain rfl := List.mem_singleton.mp hr
    exact Word.accepts_contracted h (hp s hs)
  · cases hr

/-- Terms that merge or cancel between the stages do not matter. -/
theorem contract_contract (h : M.Staged M₁ M₂ qs) (hcan : p.IsCanonical)
    (hp : ∀ t ∈ p, t.2.Accepts M) : (p.contract o M₁).contract o M₂ = p.contract o M := by
  refine eq_of_eval_gen (isCanonical_contract (isCanonical_contract hcan))
    (isCanonical_contract hcan) ?_
  rw [eval_contract, eval_contract, combination_eval_contract]
  exact Combination.eval_congr fun t ht => Word.eval_contract_staged _ h (hp t ht)

end WordSum

/-- A list of pairs that is a pattern can be staged at every place. -/
theorem Pattern.exists_staged {ps qs : List Pair} {M : Pattern} (h : M.pairs = ps ++ qs) :
    ∃ M₁ M₂ : Pattern, M₁.pairs = ps ∧ M.Staged M₁ M₂ qs := by
  have hnodup := M.nodup
  rw [h, positions_append] at hnodup
  obtain ⟨hps, hqs, hdisjoint⟩ := List.nodup_append'.mp hnodup
  let M₁ : Pattern := ⟨ps, hps⟩
  have hshift : (positions (qs.map (Pair.relabel M₁.shift))).Nodup := by
    rw [positions_relabel]
    refine List.Nodup.map_on ?_ hqs
    intro j hj k hk
    exact M₁.keepsOrder_shift.eq_of_eq (fun hmem => hdisjoint hmem hj) fun hmem =>
      hdisjoint hmem hk
  exact ⟨M₁, ⟨_, hshift⟩, rfl, ⟨h, rfl⟩⟩

/-- **Contracting in stages.**  When an expression can be contracted along a list of pairs, it can
be contracted along the first of them, the result can be contracted along the others at their
shifted positions, and this gives the same tree. -/
theorem contract_staged {orthonormal : Bool} {ps qs : List Pair} {M : Pattern} {e : Expr}
    {x : Evaluation} (hM : Pattern.ofPairs (ps ++ qs) = .ok M)
    (h : contract { orthonormal, reduce := false } M e = .ok x) :
    ∃ M₁ y M₂ z, Pattern.ofPairs ps = .ok M₁ ∧
      contract { orthonormal, reduce := false } M₁ e = .ok y ∧
      Pattern.ofPairs (qs.map (Pair.relabel (shiftedPosition ps))) = .ok M₂ ∧
      contract { orthonormal, reduce := false } M₂ y.result = .ok z ∧
      z.result = x.result := by
  obtain ⟨M₁, M₂, rfl, hstaged⟩ := Pattern.exists_staged (Pattern.pairs_of_ofPairs hM)
  obtain ⟨haccepts, rfl⟩ := contract_eq_ok_iff.mp h
  have hcan := e.isCanonical_canonicalWords_expand
  have hfirst : ∀ t ∈ e.words, t.2.Accepts M₁ := fun t ht =>
    ⟨(haccepts t ht).1, hstaged.fits_first (haccepts t ht).2⟩
  have hwords := Expr.words_toExpr
    (WordSum.isCanonical_contract (o := { orthonormal, reduce := false }) (M := M₁) hcan)
  have hsecond : ∀ t ∈ (e.words.contract { orthonormal, reduce := false } M₁).toExpr.words,
      t.2.Accepts M₂ := by
    rw [hwords]
    exact WordSum.accepts_of_mem_contract hstaged haccepts
  have hM₂ : Pattern.ofPairs M₂.pairs = .ok M₂ := Pattern.ofPairs_pairs M₂
  rw [hstaged.shifted] at hM₂
  refine ⟨M₁, _, M₂, _, Pattern.ofPairs_pairs M₁, contract_eq_ok_iff.mpr ⟨hfirst, rfl⟩, hM₂,
    contract_eq_ok_iff.mpr ⟨hsecond, rfl⟩, ?_⟩
  exact congrArg (fun p => WordSum.toExpr p) <| (congrArg _ hwords).trans <|
    WordSum.contract_contract hstaged hcan haccepts

/-- The crossed pairs one after the other: the first one leaves the second one two neighbours. -/
theorem contract_twoByTwo_staged :
    ∃ M₁ y M₂ z, Pattern.ofPairs [⟨0, 2⟩] = .ok M₁ ∧
      contract { orthonormal := true, reduce := false } M₁ twoByTwo = .ok y ∧
      Pattern.ofPairs [⟨0, 1⟩] = .ok M₂ ∧
      contract { orthonormal := true, reduce := false } M₂ y.result = .ok z ∧
      z.result = crossedEvaluation.result := by
  have hcrossed : Pattern.ofPairs ([⟨0, 2⟩] ++ [⟨1, 3⟩]) = .ok crossed :=
    Pattern.ofPairs_pairs crossed
  exact contract_staged hcrossed contract_crossed

end SecondQuant
