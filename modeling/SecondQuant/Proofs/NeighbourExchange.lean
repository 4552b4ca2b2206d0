import Mathlib.Data.List.Sort
import Mathlib.Logic.Equiv.Basic
import SecondQuant.Proofs.ExchangeSign
import SecondQuant.Proofs.PairOrder

/-!
# Exchanged neighbours

Two neighbours of a chain change places, and a pattern follows them.  The pairs join the same
operators as before, so they contract and contribute the same tensors.  The listing of the fermions
that gives the sign has two consecutive positions exchanged, and what is left keeps its order unless
both neighbours are left.

* `sortingSign_map_swap` — the sign of a listing in which two consecutive numbers are exchanged.
* `Pattern.exchange` — the pattern that follows two neighbours; `foundAt_exchange` says that it
  joins the same operators.
* `wickSign_exchange`, `wickSign_exchange_of_not_mem` — the sign of a pattern after the exchange.
* `remaining_exchange` — what a pattern leaves around the two neighbours.
* `Word.contract_exchange_of_mem` — the contraction of a word of which one neighbour is contracted.
-/

namespace SecondQuant

/-! ## Exchanged positions -/

/-- Exchanging two consecutive numbers changes which members are below a number only where the two
meet. -/
theorem countP_swap_lt {a k : ℕ} {l : List ℕ} (ha : a ∉ l) :
    (l.countP fun b => decide (Equiv.swap k (k + 1) b < Equiv.swap k (k + 1) a)) +
        (if a = k + 1 then l.count k else 0) =
      (l.countP fun b => decide (b < a)) + if a = k then l.count (k + 1) else 0 := by
  induction l with
  | nil => simp
  | cons b l ih =>
      obtain ⟨hab, ha⟩ := List.ne_and_not_mem_of_not_mem_cons ha
      have hcount := ih ha
      have hb := Equiv.swap_apply_def k (k + 1) b
      have ha' := Equiv.swap_apply_def k (k + 1) a
      simp only [List.countP_cons, List.count_cons, decide_eq_true_eq, beq_iff_eq]
      split_ifs at hb ha' hcount ⊢ <;> omega

/-- The sign of a listing in which two consecutive numbers are exchanged: it changes if both are
there. -/
theorem sortingSign_map_swap {l : List ℕ} (hl : l.Nodup) (k : ℕ) :
    sortingSign (l.map (Equiv.swap k (k + 1))) =
      Sign.ofParity (l.count k * l.count (k + 1)) * sortingSign l := by
  induction l with
  | nil => rfl
  | cons a l ih =>
      obtain ⟨ha, hl⟩ := List.nodup_cons.mp hl
      have hcount := countP_swap_lt (k := k) ha
      have habsent : l.count a = 0 := List.count_eq_zero.mpr ha
      rw [List.map_cons, sortingSign_cons, List.countP_map, ih hl, sortingSign_cons,
        ← Sign.mul_assoc, ← Sign.mul_assoc, ← Sign.ofParity_add, ← Sign.ofParity_add]
      congr 1
      apply Sign.ofParity_congr
      simp only [Function.comp_def, compare_beq_gt, List.count_cons, beq_iff_eq]
      by_cases hk : a = k
      · subst hk
        rw [if_neg (by omega), if_pos rfl] at hcount
        rw [if_pos rfl, if_neg (by omega), habsent]
        omega
      · by_cases hk' : a = k + 1
        · subst hk'
          rw [if_pos rfl, if_neg hk] at hcount
          rw [if_neg hk, if_pos rfl, habsent]
          omega
        · simp only [if_neg hk, if_neg hk', Nat.add_zero] at hcount ⊢
          omega

/-! ## Exchanged operators -/

theorem involutive_swap (j k : ℕ) : Function.Involutive (Equiv.swap j k) := fun i => by
  rw [← Equiv.trans_apply, Equiv.swap_swap, Equiv.refl_apply]

/-- The pattern that follows the operators at two neighbouring positions which change places. -/
def Pattern.exchange (M : Pattern) (k : ℕ) : Pattern :=
  ⟨M.pairs.map (Pair.relabel (Equiv.swap k (k + 1))), by
    rw [positions_relabel]
    exact M.nodup.map (Equiv.swap k (k + 1)).injective⟩

theorem Pattern.mem_positions_exchange {M : Pattern} {j k : ℕ} :
    j ∈ positions (M.exchange k).pairs ↔ Equiv.swap k (k + 1) j ∈ positions M.pairs := by
  rw [exchange, positions_relabel, List.mem_map_of_involutive]
  exact involutive_swap k (k + 1)

theorem getElem?_exchange {α : Type} (pre post : List α) (a b : α) (j : ℕ) :
    (pre ++ b :: a :: post)[Equiv.swap pre.length (pre.length + 1) j]? =
      (pre ++ a :: b :: post)[j]? := by
  rw [Equiv.swap_apply_def]
  split_ifs with hk hk'
  · subst hk
    rw [List.getElem?_append_right (by omega), List.getElem?_append_right (by omega)]
    simp
  · subst hk'
    rw [List.getElem?_append_right (by omega), List.getElem?_append_right (by omega)]
    simp
  · rcases Nat.lt_or_ge j pre.length with hlt | hge
    · rw [List.getElem?_append_left hlt, List.getElem?_append_left hlt]
    · obtain ⟨i, rfl⟩ : ∃ i, j = pre.length + (i + 2) := ⟨j - pre.length - 2, by omega⟩
      rw [List.getElem?_append_right (by omega), List.getElem?_append_right (by omega)]
      simp

section Exchange

variable {pre post : List ChainOperator} {a b : ChainOperator} {M : Pattern}

theorem foundAt_exchange (ps : List Pair) :
    FoundAt (Equiv.swap pre.length (pre.length + 1)) (pre ++ a :: b :: post)
      (pre ++ b :: a :: post) ps :=
  fun j _ => getElem?_exchange pre post a b j

theorem mem_fermionPositions_exchange {j : ℕ} :
    j ∈ fermionPositions (pre ++ b :: a :: post) ↔
      Equiv.swap pre.length (pre.length + 1) j ∈ fermionPositions (pre ++ a :: b :: post) := by
  rw [mem_fermionPositions, mem_fermionPositions, getElem?_exchange]

/-- Two ascending lists of positions, one of them the other with two neighbours exchanged, go
through their members in the same order unless both neighbours are there. -/
theorem eq_map_swap {k : ℕ} {us us' : List ℕ} (hus : us.Pairwise (· < ·))
    (hus' : us'.Pairwise (· < ·)) (hmem : ∀ j, j ∈ us' ↔ Equiv.swap k (k + 1) j ∈ us)
    (hnot : ¬(k ∈ us ∧ k + 1 ∈ us)) : us' = us.map (Equiv.swap k (k + 1)) := by
  have hascending : (us.map (Equiv.swap k (k + 1))).Pairwise (· < ·) := by
    refine List.pairwise_map.mpr (hus.imp_of_mem fun {i j} hi hj hij => ?_)
    have hi' := Equiv.swap_apply_def k (k + 1) i
    have hj' := Equiv.swap_apply_def k (k + 1) j
    -- only the two neighbours themselves could change their order
    have hne : ¬(i = k ∧ j = k + 1) := fun h => hnot ⟨h.1 ▸ hi, h.2 ▸ hj⟩
    split_ifs at hi' hj' <;> omega
  refine hus'.eq_of_mem_iff hascending fun j => ?_
  rw [hmem, List.mem_map_of_involutive (involutive_swap k (k + 1))]

/-- If both neighbours are there, the two lists are the same. -/
theorem eq_of_swap_mem {k : ℕ} {us us' : List ℕ} (hus : us.Pairwise (· < ·))
    (hus' : us'.Pairwise (· < ·)) (hmem : ∀ j, j ∈ us' ↔ Equiv.swap k (k + 1) j ∈ us)
    (hk : k ∈ us) (hk' : k + 1 ∈ us) : us' = us := by
  refine hus'.eq_of_mem_iff hus fun j => ?_
  rw [hmem, Equiv.swap_apply_def]
  split_ifs with hj hj'
  · exact iff_of_true hk' (hj ▸ hk)
  · exact iff_of_true hk (hj' ▸ hk')
  · rfl

/-- The positions that are left, after the exchange. -/
theorem mem_uncontracted_exchange {j : ℕ} :
    j ∈ uncontracted (fermionPositions (pre ++ b :: a :: post)) (M.exchange pre.length).pairs ↔
      Equiv.swap pre.length (pre.length + 1) j ∈
        uncontracted (fermionPositions (pre ++ a :: b :: post)) M.pairs := by
  rw [mem_uncontracted, mem_uncontracted, mem_fermionPositions_exchange,
    Pattern.mem_positions_exchange]

theorem mem_fermionPositions_left :
    pre.length ∈ fermionPositions (pre ++ a :: b :: post) ↔ a.isFermion = true := by
  rw [mem_fermionPositions, List.getElem?_append_right (Nat.le_refl _)]
  simp

theorem mem_fermionPositions_right :
    pre.length + 1 ∈ fermionPositions (pre ++ a :: b :: post) ↔ b.isFermion = true := by
  rw [mem_fermionPositions, List.getElem?_append_right (Nat.le_succ _)]
  simp

/-- The listing of the fermions follows the exchange, unless both neighbours are left. -/
theorem wickOrder_exchange
    (hnot : ¬(pre.length ∈ uncontracted (fermionPositions (pre ++ a :: b :: post)) M.pairs ∧
      pre.length + 1 ∈ uncontracted (fermionPositions (pre ++ a :: b :: post)) M.pairs)) :
    wickOrder (pre ++ b :: a :: post) (M.exchange pre.length) =
      (wickOrder (pre ++ a :: b :: post) M).map (Equiv.swap pre.length (pre.length + 1)) := by
  have hleft := eq_map_swap ((fermionPositions_ascending (pre ++ a :: b :: post)).filter _)
    ((fermionPositions_ascending (pre ++ b :: a :: post)).filter _)
    (fun _ => mem_uncontracted_exchange (M := M)) hnot
  have hpairs : (M.exchange pre.length).pairs.filter (Pair.isFermionic (pre ++ b :: a :: post)) =
      (M.pairs.filter (Pair.isFermionic (pre ++ a :: b :: post))).map
        (Pair.relabel (Equiv.swap pre.length (pre.length + 1))) :=
    (foundAt_exchange M.pairs).filter_isFermionic
  rw [wickOrder, hpairs, positions_relabel, wickOrder, List.map_append]
  exact congrArg _ hleft

/-- The sign that the exchange of two neighbours costs a listing that has both. -/
def exchangeFactor (a b : ChainOperator) : Sign :=
  if a.isFermion = true ∧ b.isFermion = true then .minus else .plus

/-- Exchanging two neighbours costs a sign if both are fermions and one of them is contracted. -/
theorem wickSign_exchange (hc : M.contracts (pre ++ a :: b :: post) = true)
    (hnot : ¬(pre.length ∈ uncontracted (fermionPositions (pre ++ a :: b :: post)) M.pairs ∧
      pre.length + 1 ∈ uncontracted (fermionPositions (pre ++ a :: b :: post)) M.pairs)) :
    wickSign (pre ++ b :: a :: post) (M.exchange pre.length) =
      exchangeFactor a b * wickSign (pre ++ a :: b :: post) M := by
  have hnodup := nodup_wickOrder hc
  have hcount : ∀ j, (wickOrder (pre ++ a :: b :: post) M).count j =
      if j ∈ fermionPositions (pre ++ a :: b :: post) then 1 else 0 := by
    intro j
    rw [List.Nodup.count hnodup]
    simp only [(wickOrder_perm hc).mem_iff]
  have hfactor : Sign.ofParity ((wickOrder (pre ++ a :: b :: post) M).count pre.length *
      (wickOrder (pre ++ a :: b :: post) M).count (pre.length + 1)) = exchangeFactor a b := by
    rw [hcount, hcount, exchangeFactor]
    simp only [mem_fermionPositions_left, mem_fermionPositions_right]
    cases a.isFermion <;> cases b.isFermion <;> rfl
  rw [wickSign, wickOrder_exchange hnot, sortingSign_map_swap hnodup, hfactor, wickSign]

/-- A pattern that uses neither of the two neighbours stays as it is. -/
theorem map_relabel_swap {k : ℕ} {ps : List Pair} (hk : k ∉ positions ps)
    (hk' : k + 1 ∉ positions ps) : ps.map (Pair.relabel (Equiv.swap k (k + 1))) = ps := by
  have hfix : ∀ j ∈ positions ps, Equiv.swap k (k + 1) j = j := fun j hj =>
    Equiv.swap_apply_of_ne_of_ne (fun h => hk (h ▸ hj)) fun h => hk' (h ▸ hj)
  refine (List.map_congr_left fun p hp => ?_).trans (List.map_id ps)
  rw [Pair.relabel, hfix _ (mem_positions.mpr ⟨p, hp, .inl rfl⟩),
    hfix _ (mem_positions.mpr ⟨p, hp, .inr rfl⟩)]
  rfl

/-- If neither neighbour is contracted, the sign stays. -/
theorem wickSign_exchange_of_not_mem (hc : M.contracts (pre ++ a :: b :: post) = true)
    (hk : pre.length ∉ positions M.pairs) (hk' : pre.length + 1 ∉ positions M.pairs) :
    wickSign (pre ++ b :: a :: post) (M.exchange pre.length) =
      wickSign (pre ++ a :: b :: post) M := by
  by_cases hboth : a.isFermion = true ∧ b.isFermion = true
  · -- both stand, one after the other, among the fermions that are left
    have hpairs : (M.exchange pre.length).pairs.filter
        (Pair.isFermionic (pre ++ b :: a :: post)) =
        M.pairs.filter (Pair.isFermionic (pre ++ a :: b :: post)) := by
      refine (foundAt_exchange M.pairs).filter_isFermionic.trans (map_relabel_swap ?_ ?_)
      · exact fun h => hk ((positions_sublist List.filter_sublist).subset h)
      · exact fun h => hk' ((positions_sublist List.filter_sublist).subset h)
    have hleft := eq_of_swap_mem ((fermionPositions_ascending (pre ++ a :: b :: post)).filter _)
      ((fermionPositions_ascending (pre ++ b :: a :: post)).filter _)
      (fun _ => mem_uncontracted_exchange (M := M))
      (mem_uncontracted.mpr ⟨mem_fermionPositions_left.mpr hboth.1, hk⟩)
      (mem_uncontracted.mpr ⟨mem_fermionPositions_right.mpr hboth.2, hk'⟩)
    rw [wickSign, wickOrder, hpairs, wickSign, wickOrder]
    exact congrArg (fun us => sortingSign (_ ++ us)) hleft
  · rw [wickSign_exchange hc, exchangeFactor, if_neg hboth, Sign.plus_mul]
    exact fun h => hboth ⟨mem_fermionPositions_left.mp (mem_uncontracted.mp h.1).1,
      mem_fermionPositions_right.mp (mem_uncontracted.mp h.2).1⟩

end Exchange

/-! ## What a pattern leaves -/

section Remaining

variable {pre post : List ChainOperator} {a b : ChainOperator} {M : Pattern}

/-- The two neighbours stand between what is left before them and what is left behind them. -/
theorem remaining_neighbours :
    remaining (pre ++ a :: b :: post) M = M.spares 0 pre ++
      ((if pre.length ∈ positions M.pairs then [] else [a]) ++
        ((if pre.length + 1 ∈ positions M.pairs then [] else [b]) ++
          M.spares (pre.length + 2) post)) := by
  rw [remaining_eq_spares, spares_append, spares_cons, spares_cons, Nat.zero_add]

theorem remaining_exchange :
    remaining (pre ++ b :: a :: post) (M.exchange pre.length) = M.spares 0 pre ++
      ((if pre.length + 1 ∈ positions M.pairs then [] else [b]) ++
        ((if pre.length ∈ positions M.pairs then [] else [a]) ++
          M.spares (pre.length + 2) post)) := by
  have hfixed : ∀ i, i ≠ pre.length → i ≠ pre.length + 1 →
      (i ∈ positions (M.exchange pre.length).pairs ↔ i ∈ positions M.pairs) := by
    intro i hi hi'
    rw [Pattern.mem_positions_exchange, Equiv.swap_apply_of_ne_of_ne hi hi']
  have hbefore : (M.exchange pre.length).spares 0 pre = M.spares 0 pre :=
    spares_congr fun i _ hi => hfixed i (by omega) (by omega)
  have hbehind : (M.exchange pre.length).spares (pre.length + 2) post =
      M.spares (pre.length + 2) post :=
    spares_congr fun i hi _ => hfixed i (by omega) (by omega)
  rw [remaining_neighbours, hbefore, hbehind]
  simp only [Pattern.mem_positions_exchange, Equiv.swap_apply_left, Equiv.swap_apply_right]

/-- Once one of the neighbours is contracted, the other one stands where it stood. -/
theorem remaining_exchange_of_mem
    (h : pre.length ∈ positions M.pairs ∨ pre.length + 1 ∈ positions M.pairs) :
    remaining (pre ++ b :: a :: post) (M.exchange pre.length) =
      remaining (pre ++ a :: b :: post) M := by
  rw [remaining_exchange, remaining_neighbours]
  rcases h with h | h
  · rw [if_pos h, List.nil_append, List.nil_append]
  · rw [if_pos h, List.nil_append, List.nil_append]

end Remaining

/-! ## Words -/

namespace Word

variable {pre post : List ChainOperator} {a b : ChainOperator} {o : Options} {M : Pattern}
  {w w' : Word}

section Neighbours

variable (hchain : w.chain = pre ++ a :: b :: post) (hchain' : w'.chain = pre ++ b :: a :: post)

include hchain hchain'

theorem contracts_exchange :
    (M.exchange pre.length).contracts w'.chain = M.contracts w.chain := by
  rw [hchain, hchain']
  exact (foundAt_exchange M.pairs).all_contracts

theorem contractionTensors_exchange (orthonormal : Bool) :
    contractionTensors orthonormal w'.chain (M.exchange pre.length).pairs =
      contractionTensors orthonormal w.chain M.pairs := by
  rw [hchain, hchain']
  exact (foundAt_exchange M.pairs).contractionTensors_eq orthonormal

/-- **Exchanging neighbours of which one is contracted**: the contraction of the word is multiplied
by the sign of the exchange. -/
theorem contract_exchange_of_mem (hcNumbers : w'.cNumbers = w.cNumbers)
    (hmem : pre.length ∈ positions M.pairs ∨ pre.length + 1 ∈ positions M.pairs) :
    w'.contract o (M.exchange pre.length) =
      Combination.scale (exchangeFactor a b).toRat (w.contract o M) := by
  have hcontracts := contracts_exchange (M := M) hchain hchain'
  rw [contract, contract, hcontracts]
  by_cases hc : M.contracts w.chain = true
  · have hword : w'.contracted o (M.exchange pre.length) = w.contracted o M := by
      rw [contracted_eq, contracted_eq, contractionTensors_exchange hchain hchain', hcNumbers,
        hchain, hchain', remaining_exchange_of_mem hmem]
    have hsign : w'.contractionSign (M.exchange pre.length) =
        exchangeFactor a b * w.contractionSign M := by
      rw [contractionSign_eq_wickSign (hcontracts.trans hc), contractionSign_eq_wickSign hc, hchain,
        hchain']
      refine wickSign_exchange (hchain ▸ hc) fun h => ?_
      exact hmem.elim (mem_uncontracted.mp h.1).2 (mem_uncontracted.mp h.2).2
    rw [if_pos hc, if_pos hc, hword, hsign, Sign.toRat_mul]
    rfl
  · rw [if_neg hc, if_neg hc]
    rfl

/-- If neither neighbour is contracted, the sign stays. -/
theorem contractionSign_exchange (hc : M.contracts w.chain = true)
    (hk : pre.length ∉ positions M.pairs) (hk' : pre.length + 1 ∉ positions M.pairs) :
    w'.contractionSign (M.exchange pre.length) = w.contractionSign M := by
  have hcontracts := contracts_exchange (M := M) hchain hchain'
  rw [contractionSign_eq_wickSign (hcontracts.trans hc), contractionSign_eq_wickSign hc, hchain,
    hchain']
  exact wickSign_exchange_of_not_mem (hchain ▸ hc) hk hk'

end Neighbours

end Word

end SecondQuant
