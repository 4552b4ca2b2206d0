import SecondQuant.Proofs.Failures
import SecondQuant.Proofs.FullContraction
import SecondQuant.Proofs.StagedContraction

/-!
# Screening and full contractions

Screening an expression at rank 0 counts quanta; contracting it fully pairs its operators.  The two
agree: the count says yes exactly when the operators of some term can be paired off, and then the
contraction along such a pairing gives a term that is not zero and has no operators.

* `Expr.raisesTo_zero_iff` — the screening at rank 0 finds the terms with a full contraction.
* `ChainOperator.Undoes.contracts` — paired operators have a contraction.
* `contract_fullContraction` — the contraction of a single term along a full contraction.
* `screening_exact` — **the screening is exact for full contractions**.
-/

namespace SecondQuant

/-! ## Terms with a full contraction -/

/-- The screening at rank 0 finds the terms with a full contraction. -/
theorem Expr.raisesTo_zero_iff {e : Expr} :
    e.raisesTo 0 = true ↔ ∃ t ∈ e.terms, ∃ chain,
      t.2.operators.mapM ChainOperator.ofTensor = .ok chain ∧
        ∃ M : Pattern, M.IsFullContraction chain := by
  simp only [raisesTo, List.any_eq_true, connects_iff, exists_isFullContraction_iff]
  exact exists_congr fun t => and_congr_right fun _ => mem_reach_iff

/-! ## Their contractions -/

/-- Operators that are read as states of one space have a state in common. -/
theorem ChainOperator.isSome_meet? {l r : ChainOperator} {s : Space} (hl : l.ReadsAs s)
    (hr : r.ReadsAs s) (hs : s = .occupied ∨ s = .virtual) :
    (l.index.space.meet? r.index.space).isSome := by
  rcases hs with rfl | rfl <;> rcases hl with hl | hl <;> rcases hr with hr | hr <;>
    rw [hl, hr] <;> rfl

/-- Paired operators can be contracted, if bosons stand on photon indices. -/
theorem ChainOperator.Undoes.contracts {l r : ChainOperator} (h : l.Undoes r)
    (hl : l.ladder.statistics = .boson → l.index.space = .photon)
    (hr : r.ladder.statistics = .boson → r.index.space = .photon) : l.contracts r = true := by
  rw [ChainOperator.contracts]
  rcases h with ⟨hlad, hrad⟩ | ⟨hlad, hrad, hls, hrs⟩ | ⟨hlad, hrad, hls, hrs⟩
  · rw [hl (by rw [hlad]), hr (by rw [hrad]), hlad, hrad]
    rfl
  · rw [hlad, hrad, isSome_meet? hls hrs (.inr rfl)]
    rfl
  · rw [hlad, hrad, isSome_meet? hls hrs (.inl rfl)]
    rfl

namespace Pattern.IsFullContraction

variable {chain : List ChainOperator} {M : Pattern}

theorem fits (h : M.IsFullContraction chain) : M.Fits chain.length :=
  fun k hk => (h.covers k).mp hk

theorem contracts (h : M.IsFullContraction chain)
    (hbosons : ∀ x ∈ chain, x.ladder.statistics = .boson → x.index.space = .photon) :
    M.contracts chain = true := by
  apply List.all_eq_true.mpr
  intro p hp
  obtain ⟨_, l, r, hl, hr, hundoes⟩ := h.closes p hp
  have hlmem : l ∈ chain := List.mem_of_getElem? hl
  have hrmem : r ∈ chain := List.mem_of_getElem? hr
  exact Pair.contracts_iff.mpr ⟨l, r, hl, hr, hundoes.contracts (hbosons l hlmem) (hbosons r hrmem)⟩

theorem remaining_eq_nil (h : M.IsFullContraction chain) : remaining chain M = [] :=
  SecondQuant.remaining_eq_nil fun k hk => (h.covers k).mpr hk

end Pattern.IsFullContraction

/-- The contraction of a single term along a full contraction: one term is evaluated, none vanishes,
and the result is not zero and has no operators. -/
theorem contract_fullContraction {o : Options} (ho : o.reduce = false) {M : Pattern} {d : Expr}
    {c : ℚ} {w : Word} (hc : c ≠ 0) (hw : w.IsCanonical) (hd : d.words = [(c, w)])
    (hwell : w.WellFormed) (hM : M.IsFullContraction w.chain)
    (hbosons : ∀ x ∈ w.chain, x.ladder.statistics = .boson → x.index.space = .photon) :
    ∃ x, contract o M d = .ok x ∧ x.evaluated = 1 ∧ x.vanished = 0 ∧ x.result ≠ 0 ∧
      x.result.operators = [] := by
  have hcontracts := hM.contracts hbosons
  refine ⟨_, contract_eq_ok_iff.mpr ⟨?_, rfl⟩, ?_, ?_, ?_⟩
  · rw [hd]
    exact List.forall_mem_singleton.mpr ⟨hwell, hM.fits⟩
  · rw [hd]
    rfl
  · simp [hd, hcontracts]
  · have hne : c * (w.contractionSign M).toRat ≠ 0 :=
      mul_ne_zero hc (w.contractionSign M).toRat_ne_zero
    have hresult : finish o (d.words.contract o M).toExpr =
        Expr.scaled (c * (w.contractionSign M).toRat) (w.contracted o M).monomial := by
      rw [finish, ho, hd, WordSum.toExpr_contract_singleton hc hw hcontracts]
      rfl
    simp only [hresult]
    constructor
    · intro hzero
      have hterms := Word.terms_scaled hne (w.contracted o M)
      rw [hzero] at hterms
      exact List.cons_ne_nil _ _ hterms.symm
    · rw [Expr.operators, Word.leaves_scaled hne]
      show (w.contracted o M).operators = []
      rw [Word.operators_contracted, hM.remaining_eq_nil, List.map_nil]

/-! ## Terms of an expression -/

/-- A term on its own, with or without its coefficient, is the tree of a single word. -/
theorem Expr.exists_word_of_isTerm {e : Expr} (he : e.IsCanonical) {t : Term} (ht : t ∈ e.terms)
    {d : Expr} (hd : d ∈ [t.2, t.1 • t.2]) :
    ∃ (c : ℚ) (w : Word), c ≠ 0 ∧ w.IsCanonical ∧ t.2 = w.monomial ∧ d.words = [(c, w)] := by
  rw [terms_eq_words he] at ht
  obtain ⟨⟨c, w⟩, hword, rfl⟩ := List.mem_map.mp ht
  have hcan : e.words.IsCanonical := e.isCanonical_canonicalWords_expand
  have hw : w.IsCanonical := hcan.2 _ hword
  have hc : c ≠ 0 := hcan.1.2 _ hword
  have hscaled : ∀ {k : ℚ}, k ≠ 0 → (scaled k w.monomial).words = [(k, w)] :=
    fun hk => words_toExpr (WordSum.built_single hk hw)
  rcases List.mem_cons.mp hd with rfl | hd
  · refine ⟨1, w, one_ne_zero, hw, rfl, ?_⟩
    have hone := hscaled one_ne_zero
    rwa [one_scaled] at hone
  · obtain rfl := List.mem_singleton.mp hd
    refine ⟨c, w, hc, hw, rfl, ?_⟩
    rw [← scaled_eq_smul hc hw]
    exact hscaled hc

/-- **The screening is exact for full contractions.**  An expression passes the screening at rank 0
exactly when some term has a chain of well-formed operators that can be paired off.  In a canonical
expression whose bosons stand on photon indices, such a term can then be contracted on its own along
the pairing: it does not vanish, and the result is not zero and has no operators. -/
theorem screening_exact :
    (∀ e : Expr, e.raisesTo 0 = true ↔ ∃ t ∈ e.terms, ∃ chain,
      t.2.operators.mapM ChainOperator.ofTensor = .ok chain ∧
        ∃ M : Pattern, M.IsFullContraction chain) ∧
    ∀ (e : Expr) (o : Options), e.IsCanonical → o.reduce = false →
      ∀ t ∈ e.terms, ∀ (chain : List ChainOperator) (M : Pattern),
        t.2.operators.mapM ChainOperator.ofTensor = .ok chain → M.IsFullContraction chain →
        (∀ x ∈ chain, x.ladder.statistics = .boson → x.index.space = .photon) →
        ∀ d ∈ [t.2, t.1 • t.2], ∃ x, contract o M d = .ok x ∧ x.evaluated = 1 ∧ x.vanished = 0 ∧
          x.result ≠ 0 ∧ x.result.operators = [] := by
  refine ⟨fun e => Expr.raisesTo_zero_iff, ?_⟩
  intro e o he ho t ht chain M hchain hM hbosons d hd
  obtain ⟨c, w, hc, hw, hmonomial, hwords⟩ := Expr.exists_word_of_isTerm he ht hd
  rw [hmonomial, Word.operators_monomial, mapM_eq_ok_iff] at hchain
  simp only [ChainOperator.ofTensor_eq_ok_iff] at hchain
  obtain ⟨hwell, rfl⟩ := forall₂_eq_some_iff.mp hchain
  exact contract_fullContraction ho hc hw hwords hwell hM hbosons

/-- Two fermions on general indices and two photons. -/
def closedTerm : Expr :=
  .prod [.creation .fermion (.dummy .general 1), .annihilation .fermion (.dummy .general 2),
    .annihilation .boson (.dummy .photon 1), .creation .boson (.dummy .photon 2)]

/-- The fermions are read on occupied states, and the photon that is made is taken away. -/
def closingPairs : Pattern :=
  ⟨[⟨0, 1⟩, ⟨2, 3⟩], by decide⟩

/-- The term passes the screening, and its contraction is a product of two deltas. -/
theorem screening_exact_closedTerm :
    closedTerm.raisesTo 0 = true ∧
      ∃ x, contract { orthonormal := true, reduce := false } closingPairs closedTerm = .ok x ∧
        x.evaluated = 1 ∧ x.vanished = 0 ∧ x.result ≠ 0 ∧ x.result.operators = [] := by
  have hcan : closedTerm.IsCanonical := Expr.canonical_eq_self_iff.mp (by decide +kernel)
  have hterm : (1, closedTerm) ∈ closedTerm.terms := List.mem_singleton.mpr rfl
  have hchain : closedTerm.operators.mapM ChainOperator.ofTensor =
      .ok closedTerm.chainOperators := rfl
  have hfull : closingPairs.IsFullContraction closedTerm.chainOperators := by
    constructor
    · intro k
      have hlength : closedTerm.chainOperators.length = 4 := rfl
      simp only [closingPairs, positions, List.mem_cons, List.not_mem_nil, or_false, hlength]
      omega
    · intro p hp
      simp only [closingPairs, List.mem_cons, List.not_mem_nil, or_false] at hp
      rcases hp with rfl | rfl
      · exact ⟨by decide, _, _, rfl, rfl, by decide⟩
      · exact ⟨by decide, _, _, rfl, rfl, by decide⟩
  have hbosons : ∀ x ∈ closedTerm.chainOperators,
      x.ladder.statistics = .boson → x.index.space = .photon := by decide
  exact ⟨(screening_exact.1 closedTerm).mpr ⟨_, hterm, _, hchain, closingPairs, hfull⟩,
    screening_exact.2 closedTerm { orthonormal := true, reduce := false } hcan rfl _ hterm _
      closingPairs hchain hfull hbosons closedTerm List.mem_cons_self⟩

end SecondQuant
