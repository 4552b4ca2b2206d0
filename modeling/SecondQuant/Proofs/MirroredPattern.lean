import SecondQuant.Proofs.AdjointWords
import SecondQuant.Proofs.ExchangeSign
import SecondQuant.Proofs.PairOrder

/-!
# Mirrored patterns

Taking adjoints reverses a chain.  A pattern that is read from the other end joins the same
operators as before, each pair the other way round, so it contracts the adjoint operators and
contributes the same tensors.  A pair encloses the same fermions, and is reversed if it was, so the
sign is the same as well; what is left is the adjoint of what was left, in reverse order.

* `Pair.mirror`, `Pattern.mirror` — a pair and a pattern, read from the other end of a chain.
* `exchangeSign_mirror` — the sign of a list of exchanges, read from the other end.
* `Pattern.contracts_mirror`, `contractionTensors_mirror`, `linksSign_mirror`, `remaining_mirror` —
  what a mirrored pattern does to the adjoint chain.
-/

namespace SecondQuant

/-! ## Lists read backwards -/

section Reverse

variable {α : Type}

/-- The members of a reversed list, with their positions. -/
theorem zipIdx_reverse (l : List α) :
    l.reverse.zipIdx = (l.zipIdx.map fun x => (x.1, l.length - 1 - x.2)).reverse := by
  refine List.ext_getElem (by simp) fun i hi _ => ?_
  have hi : i < l.length := by simpa using hi
  simp only [List.getElem_zipIdx, List.getElem_reverse, List.getElem_map, List.length_map,
    List.length_zipIdx, Nat.zero_add, Prod.mk.injEq, true_and]
  omega

/-- What a condition on members and positions keeps of a reversed list. -/
theorem filter_zipIdx_reverse (l : List α) {p q : α × ℕ → Bool}
    (h : ∀ x ∈ l.zipIdx, q (x.1, l.length - 1 - x.2) = p x) :
    l.reverse.zipIdx.filter q =
      ((l.zipIdx.filter p).map fun x => (x.1, l.length - 1 - x.2)).reverse := by
  rw [zipIdx_reverse, List.filter_reverse, List.filter_map]
  exact congrArg (fun l => (List.map _ l).reverse) (List.filter_congr h)

theorem spares_reverse {M M' : Pattern} (l : List α)
    (h : ∀ k < l.length, l.length - 1 - k ∈ positions M'.pairs ↔ k ∈ positions M.pairs) :
    M'.spares 0 l.reverse = (M.spares 0 l).reverse := by
  rw [Pattern.spares, filter_zipIdx_reverse l (p := fun x => decide (x.2 ∉ positions M.pairs)),
    List.map_reverse, List.map_map, Pattern.spares]
  · rfl
  · intro x hx
    rw [decide_eq_decide, h x.2 (List.snd_lt_of_mem_zipIdx hx)]

end Reverse

/-! ## Pairs and patterns -/

/-- A pair of positions of a chain of length `n`, read from the other end. -/
def Pair.mirror (n : ℕ) (p : Pair) : Pair :=
  ⟨n - 1 - p.right, n - 1 - p.left⟩

/-- The pairs from the other end are those at the mirrored positions, each turned around. -/
theorem map_mirror (n : ℕ) (ps : List Pair) :
    ps.map (Pair.mirror n) =
      (ps.map (Pair.relabel (n - 1 - ·))).map (Pair.orient fun _ => true) := by
  rw [List.map_map]
  rfl

theorem positions_mirror_perm (n : ℕ) (ps : List Pair) :
    (positions (ps.map (Pair.mirror n))).Perm ((positions ps).map (n - 1 - ·)) := by
  rw [map_mirror, ← positions_relabel]
  exact positions_orient_perm _ _

namespace Pattern

variable {M : Pattern} {n : ℕ}

/-- A pattern that fits a chain of length `n`, read from the other end. -/
def mirror (M : Pattern) (hM : M.Fits n) : Pattern :=
  ⟨M.pairs.map (Pair.mirror n), by
    rw [(positions_mirror_perm n M.pairs).nodup_iff]
    refine M.nodup.map_on fun j hj k hk hjk => ?_
    have hjn := hM j hj
    have hkn := hM k hk
    omega⟩

theorem mem_positions_mirror (hM : M.Fits n) {k : ℕ} :
    k ∈ positions (M.mirror hM).pairs ↔ ∃ j ∈ positions M.pairs, n - 1 - j = k :=
  (positions_mirror_perm n M.pairs).mem_iff.trans List.mem_map

theorem fits_mirror (hM : M.Fits n) : (M.mirror hM).Fits n := by
  intro k hk
  obtain ⟨j, hj, rfl⟩ := (mem_positions_mirror hM).mp hk
  have hjn := hM j hj
  omega

theorem mem_positions_mirror_sub (hM : M.Fits n) {k : ℕ} (hk : k < n) :
    n - 1 - k ∈ positions (M.mirror hM).pairs ↔ k ∈ positions M.pairs := by
  rw [mem_positions_mirror]
  constructor
  · rintro ⟨j, hj, hjk⟩
    have hjn := hM j hj
    obtain rfl : j = k := by omega
    exact hj
  · exact fun hmem => ⟨k, hmem, rfl⟩

end Pattern

/-! ## Exchanges -/

/-- A mirrored pair costs the exchanges that it cost. -/
theorem Pair.exchanges_mirror {n : ℕ} {ks : List ℕ} {p : Pair} (hks : ∀ k ∈ ks, k < n)
    (hl : p.left < n) (hr : p.right < n) :
    (p.mirror n).exchanges (ks.map (n - 1 - ·)) = p.exchanges ks := by
  have hencloses : ∀ k ∈ ks,
      ((p.mirror n).encloses ∘ (n - 1 - ·)) k = true ↔ p.encloses k = true := by
    intro k hk
    have hkn := hks k hk
    rw [Function.comp, Pair.encloses_iff, Pair.encloses_iff]
    simp only [Pair.mirror]
    omega
  have hreversed : (p.mirror n).isReversed = p.isReversed := by
    rw [Pair.isReversed, Pair.isReversed, decide_eq_decide]
    simp only [Pair.mirror]
    omega
  rw [Pair.exchanges, Pair.exchanges, List.countP_map, List.countP_congr hencloses, hreversed]

/-- **Exchanges from the other end.**  Mirrored pairs, in the same order, cost the same sign among
the mirrored positions, however these are listed. -/
theorem exchangeSign_mirror {n : ℕ} {ks ks' : List ℕ} {ps : List Pair} (hks : ∀ k ∈ ks, k < n)
    (hps : ∀ k ∈ positions ps, k < n) (hperm : ks'.Perm (ks.map (n - 1 - ·))) :
    exchangeSign ks' (ps.map (Pair.mirror n)) = exchangeSign ks ps := by
  induction ps generalizing ks ks' with
  | nil => rfl
  | cons p ps ih =>
      obtain ⟨hl, hps⟩ := List.forall_mem_cons.mp hps
      obtain ⟨hr, hps⟩ := List.forall_mem_cons.mp hps
      have hleft : (uncontracted ks' [p.mirror n]).Perm
          ((uncontracted ks [p]).map (n - 1 - ·)) := by
        refine (hperm.filter _).trans (List.Perm.of_eq ?_)
        rw [List.filter_map]
        refine congrArg _ (List.filter_congr fun k hk => ?_)
        have hkn := hks k hk
        rw [Function.comp, decide_eq_decide, mem_positions_singleton, mem_positions_singleton]
        simp only [Pair.mirror]
        omega
      have hks' : ∀ k ∈ uncontracted ks [p], k < n := fun k hk => hks k (mem_uncontracted.mp hk).1
      rw [List.map_cons, exchangeSign, Pair.exchanges_perm hperm, Pair.exchanges_mirror hks hl hr,
        ih hks' hps hleft, exchangeSign]

/-- Crossed pairs cost a sign from the other end, too. -/
example : exchangeSign [0, 1, 2, 3] ([⟨0, 2⟩, ⟨1, 3⟩].map (Pair.mirror 4)) = .minus := by decide

/-! ## Adjoint operators -/

/-- Two operators contract exactly when their adjoints do. -/
theorem ChainOperator.contracts_adjoint (l r : ChainOperator) :
    l.adjoint.contracts r.adjoint = l.contracts r := by
  have hactions : ∀ a b : Action, (a.adjoint == b.adjoint.adjoint) = (a == b.adjoint) := by
    intro a b
    cases a <;> cases b <;> rfl
  simp only [contracts, adjoint, Ladder.adjoint, hactions]

section Adjoint

variable (chain : List ChainOperator)

theorem Pair.contracts_map_adjoint :
    Pair.contracts (chain.map ChainOperator.adjoint) = Pair.contracts chain := by
  funext p
  rw [contracts, contracts, List.getElem?_map, List.getElem?_map]
  cases chain[p.left]? with
  | none => rfl
  | some l =>
      cases chain[p.right]? with
      | none => rfl
      | some r => exact l.contracts_adjoint r

theorem Pair.isFermionic_map_adjoint :
    Pair.isFermionic (chain.map ChainOperator.adjoint) = Pair.isFermionic chain := by
  funext p
  rw [isFermionic, isFermionic, List.getElem?_map]
  cases chain[p.left]? <;> rfl

theorem Pair.tensor?_map_adjoint (orthonormal : Bool) :
    Pair.tensor? orthonormal (chain.map ChainOperator.adjoint) =
      Pair.tensor? orthonormal chain := by
  funext p
  rw [tensor?, tensor?, link?, link?, List.getElem?_map, List.getElem?_map]
  cases chain[p.left]? <;> cases chain[p.right]? <;> rfl

theorem fermionPositions_map_adjoint :
    fermionPositions (chain.map ChainOperator.adjoint) = fermionPositions chain := by
  rw [fermionPositions, List.zipIdx_map, List.filter_map, List.map_map, fermionPositions]
  rfl

theorem fermionPositions_reverse :
    fermionPositions chain.reverse =
      ((fermionPositions chain).map (chain.length - 1 - ·)).reverse := by
  rw [fermionPositions, filter_zipIdx_reverse chain (p := fun o => o.1.isFermion) fun _ _ => rfl,
    List.map_reverse, List.map_map, fermionPositions, List.map_map]
  rfl

end Adjoint

/-! ## The adjoint chain -/

section Mirror

variable {chain : List ChainOperator} {M : Pattern}

/-- The reversed chain has the operators at the mirrored positions. -/
theorem foundAt_reverse {ps : List Pair} (h : ∀ k ∈ positions ps, k < chain.length) :
    FoundAt (chain.length - 1 - ·) chain chain.reverse ps := by
  intro k hk
  have hkn := h k hk
  show chain.reverse[chain.length - 1 - k]? = chain[k]?
  rw [List.getElem?_reverse (by omega), show chain.length - 1 - (chain.length - 1 - k) = k by omega]

theorem foundAt_adjoint (hM : M.Fits chain.length) :
    FoundAt (chain.length - 1 - ·) (chain.map ChainOperator.adjoint)
      (chain.map ChainOperator.adjoint).reverse M.pairs := by
  have hfit : ∀ k ∈ positions M.pairs, k < (chain.map ChainOperator.adjoint).length := by
    rwa [List.length_map]
  have h := foundAt_reverse hfit
  rwa [List.length_map] at h

variable (hM : M.Fits chain.length)

include hM

/-- A pattern contracts a chain exactly when the mirrored one contracts the adjoint chain. -/
theorem Pattern.contracts_mirror :
    (M.mirror hM).contracts (chain.map ChainOperator.adjoint).reverse = M.contracts chain := by
  have hflip : ∀ p : Pair, (p.orient fun _ => true).contracts
      (chain.map ChainOperator.adjoint).reverse =
      p.contracts (chain.map ChainOperator.adjoint).reverse := Pair.contracts_flip
  show (M.pairs.map (Pair.mirror chain.length)).all _ = M.pairs.all _
  rw [map_mirror, List.all_map, ← Pair.contracts_map_adjoint chain,
    ← (foundAt_adjoint hM).all_contracts]
  exact congrArg _ (funext hflip)

/-- The mirrored pairs contribute the same tensors. -/
theorem contractionTensors_mirror (orthonormal : Bool) :
    contractionTensors orthonormal (chain.map ChainOperator.adjoint).reverse (M.mirror hM).pairs =
      contractionTensors orthonormal chain M.pairs := by
  show contractionTensors orthonormal _ (M.pairs.map (Pair.mirror chain.length)) = _
  rw [map_mirror, contractionTensors_orient, (foundAt_adjoint hM).contractionTensors_eq,
    contractionTensors_eq, contractionTensors_eq, Pair.tensor?_map_adjoint]

/-- The fermionic pairs of the mirrored pattern are the mirrored fermionic pairs. -/
theorem filter_isFermionic_mirror (hc : M.contracts chain = true) :
    (M.mirror hM).pairs.filter (Pair.isFermionic (chain.map ChainOperator.adjoint).reverse) =
      (M.pairs.filter (Pair.isFermionic chain)).map (Pair.mirror chain.length) := by
  show (M.pairs.map (Pair.mirror chain.length)).filter _ = _
  have hmoved := (foundAt_adjoint hM).filter_isFermionic
  have hcontracts := (foundAt_adjoint hM).all_contracts
  rw [Pair.isFermionic_map_adjoint] at hmoved
  rw [Pair.contracts_map_adjoint] at hcontracts
  rw [map_mirror, map_mirror, ← hmoved, List.filter_map]
  refine congrArg _ (List.filter_congr fun p hp => ?_)
  exact Pair.isFermionic_flip (List.all_eq_true.mp (hcontracts.trans hc) p hp)

/-- The links contribute the same sign. -/
theorem linksSign_mirror (hc : M.contracts chain = true) :
    linksSign (Live.ofChain (chain.map ChainOperator.adjoint).reverse)
        (links (chain.map ChainOperator.adjoint).reverse (M.mirror hM).pairs) =
      linksSign (Live.ofChain chain) (links chain M.pairs) := by
  rw [linksSign_ofChain ((Pattern.contracts_mirror hM).trans hc), linksSign_ofChain hc,
    filter_isFermionic_mirror hM hc]
  apply exchangeSign_mirror
  · intro k hk
    obtain ⟨o, ho, _⟩ := mem_fermionPositions.mp hk
    exact (List.getElem?_eq_some_iff.mp ho).1
  · exact fun k hk => hM k ((positions_sublist List.filter_sublist).subset hk)
  · rw [fermionPositions_reverse, fermionPositions_map_adjoint, List.length_map]
    exact List.reverse_perm _

/-- What is left are the adjoints of what was left, in reverse order. -/
theorem remaining_mirror :
    remaining (chain.map ChainOperator.adjoint).reverse (M.mirror hM) =
      ((remaining chain M).map ChainOperator.adjoint).reverse := by
  rw [remaining_eq_spares, remaining_eq_spares, ← spares_map]
  apply spares_reverse
  rw [List.length_map]
  exact fun k hk => Pattern.mem_positions_mirror_sub hM hk

end Mirror

end SecondQuant
