import SecondQuant.Proofs.CanonicalOperations
import SecondQuant.Proofs.ExchangeSign

/-!
# Directed contraction as a sum over terms

The textbook form of a contraction along a pattern: a sum over the terms in which every pair of the
pattern joins two operators that contract, each with the sign of the permutation that lists its
fermions pair by pair, its c-numbers, the values of the pairs and the operators that are left.
`contract` counts exchanges step by step instead; the two agree.

* `wickOrder`, `wickSign` — the listing of the fermions and its sign.
* `Expr.wickProduct`, `Expr.wickSum` — the value of a term and the sum over all of them.
* `contract_eq_wickSum` — `contract` computes the canonical form of that sum.
-/

namespace SecondQuant

/-! ## The sign of a term -/

/-- The positions of the fermions of a chain, in chain order. -/
def fermionPositions (chain : List ChainOperator) : List Nat :=
  (chain.zipIdx.filter fun o => o.1.isFermion).map Prod.snd

/-- The fermions of a chain: pair by pair in pattern order, then those that are left in chain
order. -/
def wickOrder (chain : List ChainOperator) (M : Pattern) : List Nat :=
  positions (M.pairs.filter (Pair.isFermionic chain)) ++
    uncontracted (fermionPositions chain) M.pairs

/-- The sign of that listing. -/
def wickSign (chain : List ChainOperator) (M : Pattern) : Sign :=
  sortingSign (wickOrder chain M)

theorem fermionPositions_ascending (chain : List ChainOperator) :
    (fermionPositions chain).Pairwise (· < ·) := by
  have hsub : (fermionPositions chain).Sublist (chain.zipIdx.map Prod.snd) :=
    List.filter_sublist.map Prod.snd
  rw [List.zipIdx_map_snd] at hsub
  exact List.Pairwise.sublist hsub List.pairwise_lt_range'

theorem mem_fermionPositions {chain : List ChainOperator} {k : Nat} :
    k ∈ fermionPositions chain ↔ ∃ o, chain[k]? = some o ∧ o.isFermion = true := by
  simp only [fermionPositions, List.mem_map, List.mem_filter, Prod.exists, exists_eq_right,
    List.mk_mem_zipIdx_iff_getElem?]

section Contractible

variable {chain : List ChainOperator} {M : Pattern}

/-- A contractible pair has a fermion on its left exactly when it has one on its right. -/
theorem isFermionic_iff {p : Pair} (hp : p.contracts chain = true) {k : Nat}
    (hk : k ∈ positions [p]) : p.isFermionic chain = true ↔ k ∈ fermionPositions chain := by
  obtain ⟨l, r, hl, hr, hlr⟩ := Pair.contracts_iff.mp hp
  have hfermionic : p.isFermionic chain = l.isFermion := by
    rw [Pair.isFermionic, hl, Option.any_some]
  rw [mem_fermionPositions, hfermionic]
  rcases mem_positions_singleton.mp hk with rfl | rfl
  · simp [hl]
  · simp [hr, ChainOperator.isFermion_eq_of_contracts hlr]

theorem forall_contracts (h : M.contracts chain = true) : ∀ p ∈ M.pairs, p.contracts chain = true :=
  List.all_eq_true.mp h

/-- The positions of the fermionic pairs are those of the pattern that hold a fermion. -/
theorem mem_positions_fermionic (h : M.contracts chain = true) {k : Nat} :
    k ∈ positions (M.pairs.filter (Pair.isFermionic chain)) ↔
      k ∈ positions M.pairs ∧ k ∈ fermionPositions chain := by
  simp only [mem_positions, List.mem_filter]
  constructor
  · rintro ⟨p, ⟨hp, hf⟩, hk⟩
    have hk' := mem_positions_singleton.mpr hk
    exact ⟨⟨p, hp, hk⟩, (isFermionic_iff (forall_contracts h p hp) hk').mp hf⟩
  · rintro ⟨⟨p, hp, hk⟩, hf⟩
    have hk' := mem_positions_singleton.mpr hk
    exact ⟨p, ⟨hp, (isFermionic_iff (forall_contracts h p hp) hk').mpr hf⟩, hk⟩

theorem uncontracted_fermionic (h : M.contracts chain = true) :
    uncontracted (fermionPositions chain) (M.pairs.filter (Pair.isFermionic chain)) =
      uncontracted (fermionPositions chain) M.pairs := by
  refine List.filter_congr ?_
  intro k hk
  simp only [mem_positions_fermionic h, hk, and_true]

theorem linksSign_ofChain (h : M.contracts chain = true) :
    linksSign (Live.ofChain chain) (links chain M.pairs) =
      exchangeSign (fermionPositions chain) (M.pairs.filter (Pair.isFermionic chain)) :=
  linksSign_eq_exchangeSign (fun _ ho => List.mk_mem_zipIdx_iff_getElem?.mp ho)
    (forall_contracts h)

theorem nodup_positions_fermionic (chain : List ChainOperator) (M : Pattern) :
    (positions (M.pairs.filter (Pair.isFermionic chain))).Nodup :=
  (positions_sublist List.filter_sublist).nodup M.nodup

/-- The signs of the links, one after the other, make the sign of the listing. -/
theorem linksSign_eq_wickSign (h : M.contracts chain = true) :
    linksSign (Live.ofChain chain) (links chain M.pairs) = wickSign chain M := by
  rw [linksSign_ofChain h, exchangeSign_eq_sortingSign (fermionPositions_ascending chain)
      (nodup_positions_fermionic chain M) (fun k hk => ((mem_positions_fermionic h).mp hk).2),
    uncontracted_fermionic h, wickSign, wickOrder]

theorem nodup_fermionPositions (chain : List ChainOperator) : (fermionPositions chain).Nodup :=
  (fermionPositions_ascending chain).imp Nat.ne_of_lt

/-- The listing rearranges the fermions. -/
theorem wickOrder_perm (h : M.contracts chain = true) :
    (wickOrder chain M).Perm (fermionPositions chain) := by
  rw [wickOrder, ← uncontracted_fermionic h]
  exact positions_append_uncontracted_perm (nodup_fermionPositions chain)
    (nodup_positions_fermionic chain M) (fun k hk => ((mem_positions_fermionic h).mp hk).2)

/-- Its sign is that of the permutation. -/
theorem exists_perm_wickOrder (h : M.contracts chain = true) :
    ∃ σ : Equiv.Perm (Fin (fermionPositions chain).length),
      wickOrder chain M = permuted (fermionPositions chain) σ ∧
      (wickSign chain M).toRat = (Equiv.Perm.sign σ : ℤ) := by
  obtain ⟨σ, hσ⟩ := exists_permuted (wickOrder_perm h)
  refine ⟨σ, hσ, ?_⟩
  rw [wickSign, hσ]
  refine toRat_sortingSign_of_ascending (nodup_fermionPositions chain)
    ((fermionPositions_ascending chain).imp ?_) σ
  exact fun hlt => Ordering.isLE_of_eq_lt (Nat.compare_eq_lt.mpr hlt)

end Contractible

/-! ## The sum -/

namespace Index

/-- The smaller of two indices. -/
def lesser (i j : Index) : Index :=
  if (compare i j).isLE then i else j

/-- The larger of two indices. -/
def greater (i j : Index) : Index :=
  if (compare i j).isLE then j else i

end Index

/-- The value of a contraction between two indices: 1 when they are equal in an orthonormal basis,
and otherwise a delta or an overlap without symmetry, the smaller index above. -/
def wickValue (orthonormal : Bool) (i j : Index) : Expr :=
  if orthonormal = true ∧ i = j then .one
  else .tensor <|
    Tensor.cNumber (if orthonormal then "δ" else "s") [i.lesser j] [i.greater j] .plain

/-- The value of a pair of operators of a chain. -/
def Pair.wickValue (orthonormal : Bool) (chain : List ChainOperator) (p : Pair) : Expr :=
  match chain[p.left]?, chain[p.right]? with
  | some l, some r => SecondQuant.wickValue orthonormal l.index r.index
  | _, _ => .one

namespace Expr

/-- The well-formed operators of a term, in order. -/
def chainOperators (m : Expr) : List ChainOperator :=
  (m.factors.filterMap operatorTensor?).filterMap ChainOperator.read?

/-- The terms of the canonical form in which every pair of a pattern can be contracted. -/
def wickTerms (M : Pattern) (e : Expr) : List Term :=
  e.canonical.terms.filter fun t => M.contracts t.2.chainOperators

/-- The value of a term: its c-numbers, the values of the pairs and the operators that are left. -/
def wickProduct (orthonormal : Bool) (M : Pattern) (m : Expr) : Expr :=
  .prod <| m.scalars ++ M.pairs.map (Pair.wickValue orthonormal m.chainOperators) ++
    (remaining m.chainOperators M).map fun o => .tensor o.source

/-- The sum of the values of the terms, each with its coefficient and its sign. -/
def wickSum (orthonormal : Bool) (M : Pattern) (e : Expr) : Expr :=
  .sum <| (e.wickTerms M).map fun t =>
    (t.1 * (wickSign t.2.chainOperators M).toRat, t.2.wickProduct orthonormal M)

end Expr

theorem wickValue_eq (orthonormal : Bool) (i j : Index) :
    wickValue orthonormal i j = contractionValue orthonormal i j := by
  have hbetween : ∀ name, Tensor.cNumber name [i.lesser j] [i.greater j] .plain =
      Tensor.between name i j := by
    intro name
    unfold Index.lesser Index.greater Tensor.between
    split <;> rfl
  rw [wickValue, contractionValue, hbetween]
  cases orthonormal with
  | false => rfl
  | true => simp only [true_and, if_true, deltaName]

theorem chainOperators_monomial (w : Word) : w.monomial.chainOperators = w.chain := by
  rw [Expr.chainOperators, Word.factors_monomial, Word.filterMap_operatorTensor?, Word.chain]

theorem map_wickValue {orthonormal : Bool} {chain : List ChainOperator} {ps : List Pair}
    (h : ∀ p ∈ ps, p.contracts chain = true) :
    ps.map (Pair.wickValue orthonormal chain) =
      (links chain ps).map (Link.value orthonormal) := by
  induction ps with
  | nil => rfl
  | cons p ps ih =>
      obtain ⟨hp, hps⟩ := List.forall_mem_cons.mp h
      obtain ⟨l, r, hl, hr, _⟩ := Pair.contracts_iff.mp hp
      have hlink : link? chain p = some ⟨p, l, r⟩ := by rw [link?, hl, hr]
      have hvalue : p.wickValue orthonormal chain =
          contractionValue orthonormal l.index r.index := by
        rw [Pair.wickValue, hl, hr, ← wickValue_eq]
      rw [List.map_cons, ih hps, hvalue, links_cons hlink, List.map_cons, Link.value]

open OperatorAlgebra (gen)

/-- The signed value of a term is worth the contraction of its word. -/
theorem smul_denote_wickProduct {o : Options} {M : Pattern} {w : Word}
    (hc : M.contracts w.chain = true) :
    (wickSign w.chain M).toRat • (w.monomial.wickProduct o.orthonormal M).denote =
      WordSum.eval gen (w.contract o M) := by
  have hletters : (w.monomial.wickProduct o.orthonormal M).denote =
      Word.eval gen (w.contractedLetters o M) := by
    have hresidue : ((remaining w.chain M).map fun o => Expr.tensor o.source) =
        ((remaining w.chain M).map ChainOperator.source).map Expr.tensor :=
      List.map_map.symm
    rw [Expr.wickProduct, Expr.denote, Expr.eval_prod, Word.scalars_monomial,
      chainOperators_monomial, map_wickValue (forall_contracts hc), hresidue, List.map_append,
      List.map_append, List.prod_append, List.prod_append, Word.contractedLetters,
      Word.eval_append, Word.eval_append, contractionTensors, ← prod_denote_values,
      ← prod_denote_tensors, ← prod_denote_tensors]
    rfl
  rw [hletters, ← linksSign_eq_wickSign hc, ← Word.contractionSign, ← denote_contractedProduct,
    denote_contractedProduct_eq hc]

theorem filter_monomials {α : Type} (q : Expr → Bool) (f : Term → α) (p : WordSum) :
    ((p.map fun t => (t.1, t.2.monomial)).filter fun t => q t.2).map f =
      (p.filter fun t => q t.2.monomial).map fun t => f (t.1, t.2.monomial) := by
  rw [List.filter_map, List.map_map]
  rfl

/-- The sum over the terms is the linear extension of the contraction of words. -/
theorem denote_wickSum (o : Options) (M : Pattern) (e : Expr) :
    (e.wickSum o.orthonormal M).denote =
      Combination.eval (fun w => WordSum.eval gen (w.contract o M)) e.words := by
  have hterms : e.canonical.terms = e.words.map fun t => (t.1, t.2.monomial) :=
    WordSum.terms_toExpr e.isCanonical_canonicalWords_expand
  rw [Expr.wickSum, Expr.denote, Expr.eval_sum, Expr.wickTerms, hterms,
    filter_monomials (fun m => M.contracts m.chainOperators)]
  simp only [chainOperators_monomial]
  induction e.words with
  | nil => rfl
  | cons t p ih =>
      rw [Combination.eval_cons, ← ih, List.filter_cons]
      cases hc : M.contracts t.2.chain with
      | true =>
          rw [if_pos rfl, List.map_cons, Combination.eval_cons, mul_smul,
            ← smul_denote_wickProduct hc]
          rfl
      | false =>
          rw [if_neg Bool.false_ne_true, Word.contract, hc, if_neg Bool.false_ne_true,
            WordSum.eval_nil, smul_zero, zero_add]

/-- **Directed contraction.**  The result of a contraction is the canonical form of the sum over the
terms in which every pair can be contracted, and the other terms are counted as vanishing.  All
operators of all terms are well formed, and the sign of a term is that of the permutation which
lists its fermions pair by pair and then those that are left. -/
theorem contract_eq_wickSum {orthonormal : Bool} {M : Pattern} {e : Expr} {x : Evaluation}
    (h : contract { orthonormal, reduce := false } M e = .ok x) :
    x.result = (e.wickSum orthonormal M).canonical ∧
    x.vanished = e.canonical.terms.countP (fun t => !M.contracts t.2.chainOperators) ∧
    (∀ t ∈ e.canonical.terms, t.2.operatorChain = .ok t.2.chainOperators) ∧
    ∀ t ∈ e.wickTerms M, ∃ σ : Equiv.Perm (Fin (fermionPositions t.2.chainOperators).length),
      wickOrder t.2.chainOperators M = permuted (fermionPositions t.2.chainOperators) σ ∧
      (wickSign t.2.chainOperators M).toRat = (Equiv.Perm.sign σ : ℤ) := by
  have hterms : e.canonical.terms = e.words.map fun t => (t.1, t.2.monomial) :=
    WordSum.terms_toExpr e.isCanonical_canonicalWords_expand
  have hresult := isCanonical_of_contract h
  obtain ⟨haccepts, rfl⟩ := contract_eq_ok_iff.mp h
  refine ⟨?_, ?_, ?_, fun t ht => exists_perm_wickOrder (List.mem_filter.mp ht).2⟩
  · refine Expr.eq_of_denote_eq hresult (Expr.isCanonical_canonical _) ?_
    have hfinish : ∀ d : Expr, finish { orthonormal, reduce := false } d = d := fun _ => rfl
    rw [Expr.denote_canonical, denote_wickSum { orthonormal, reduce := false }, hfinish,
      Expr.denote, WordSum.eval_toExpr, WordSum.eval_contract]
  · rw [hterms, List.countP_map]
    apply List.countP_congr
    intro t _
    rw [Function.comp, chainOperators_monomial]
  · rw [hterms]
    refine List.forall_mem_map.mpr ?_
    intro t ht
    rw [chainOperators_monomial]
    exact Word.operatorChain_monomial.mpr ⟨(haccepts t ht).1, rfl⟩

/-- Two annihilations followed by two creations. -/
def twoByTwo : Expr :=
  .prod [.annihilation .fermion (.dummy .general 1), .annihilation .fermion (.dummy .general 2),
    .creation .fermion (.dummy .general 3), .creation .fermion (.dummy .general 4)]

/-- Each annihilation with the creation two places behind it, so that the pairs cross. -/
def crossed : Pattern :=
  ⟨[⟨0, 2⟩, ⟨1, 3⟩], by decide⟩

/-- Crossing the pairs costs a sign. -/
def crossedEvaluation : Evaluation where
  source := twoByTwo
  result := .prod [.const (-1),
    .tensor (.cNumber "δ" [.dummy .general 1] [.dummy .general 3] .plain),
    .tensor (.cNumber "δ" [.dummy .general 2] [.dummy .general 4] .plain)]
  evaluated := 1
  vanished := 0
  reduced := false

theorem contract_crossed :
    contract { orthonormal := true, reduce := false } crossed twoByTwo =
      .ok crossedEvaluation := by
  decide +kernel

/-- The crossed contraction of four fermions is the sum over its single term. -/
theorem contract_twoByTwo_crossed :
    contract { orthonormal := true, reduce := false } crossed twoByTwo = .ok crossedEvaluation ∧
      crossedEvaluation.result = (twoByTwo.wickSum true crossed).canonical :=
  ⟨contract_crossed, (contract_eq_wickSum contract_crossed).1⟩

end SecondQuant
