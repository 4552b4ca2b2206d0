import SecondQuant.Proofs.Failures
import SecondQuant.Proofs.NeighbourExchange

/-!
# The exchange law

A product of c-numbers and a chain of operators is a multiple of a single word, so what an exchange
of two neighbours does to the contraction of a word it does to the contraction of the product.

* `IsRead` — chains of well-formed operators; `exists_isRead`.
* `Word.beforeChain` — the word of some c-numbers before a chain; `Expr.IsScalar.words_timesChain`
  says that a product of c-numbers and a chain has no other word.
* `toExpr_contract_exchange`, `toExpr_contract_neighbours` — an exchange where one of the neighbours
  is contracted, and where both are left.
* `contract_exchange` — **the exchange law of the sign**.
-/

namespace SecondQuant

/-! ## Chains that are read off tensors -/

theorem Tensor.isCanonical_of_elementary? {t : Tensor} {x : Ladder × Index}
    (h : t.elementary? = some x) : t.IsCanonical := by
  obtain ⟨-, hupper, hlower⟩ := elementary?_eq_some h
  refine isCanonical_of_ascending ?_ ?_
  · rw [hupper]
    exact .nil
  · rw [hlower]
    exact List.pairwise_singleton _ _

/-- Whether a tensor is a fermionic operator. -/
def Tensor.isFermion (t : Tensor) : Bool :=
  t.ladder.any fun l => l.statistics == .fermion

/-- Whether the operators of a chain are what is read off their tensors. -/
def IsRead (os : List ChainOperator) : Prop :=
  ∀ x ∈ os, ChainOperator.read? x.source = some x

theorem ChainOperator.isFermion_source {x : ChainOperator} (h : read? x.source = some x) :
    x.source.isFermion = x.isFermion := by
  obtain ⟨y, hy, hxy⟩ := Option.map_eq_some_iff.mp h
  have hladder : x.ladder = y.1 := (congrArg ladder hxy).symm
  rw [Tensor.isFermion, (Tensor.elementary?_eq_some hy).1, Option.any_some, isFermion, hladder]

namespace IsRead

variable {pre post os : List ChainOperator} {a b : ChainOperator}

theorem exchange (h : IsRead (pre ++ a :: b :: post)) : IsRead (pre ++ b :: a :: post) :=
  fun x hx => h x (by simpa [or_left_comm] using hx)

theorem isOperator (h : IsRead os) : ∀ t ∈ os.map ChainOperator.source, t.isOperator = true :=
  List.forall_mem_map.mpr fun x hx => ChainOperator.isOperator_of_read? (h x hx)

theorem isCanonical (h : IsRead os) : ∀ t ∈ os.map ChainOperator.source, t.IsCanonical := by
  refine List.forall_mem_map.mpr fun x hx => ?_
  obtain ⟨_, hread, -⟩ := Option.map_eq_some_iff.mp (h x hx)
  exact Tensor.isCanonical_of_elementary? hread

end IsRead

/-- Well-formed operators are those of a chain. -/
theorem exists_isRead {ts : List Tensor} (h : ∀ t ∈ ts, t.elementary?.isSome = true) :
    ∃ os, IsRead os ∧ os.map ChainOperator.source = ts := by
  induction ts with
  | nil => exact ⟨[], List.forall_mem_nil _, rfl⟩
  | cons t ts ih =>
      obtain ⟨ht, hts⟩ := List.forall_mem_cons.mp h
      obtain ⟨os, hos, rfl⟩ := ih hts
      obtain ⟨y, hy⟩ := Option.isSome_iff_exists.mp ht
      have hread : ChainOperator.read? t = some ⟨t, y.1, y.2⟩ := by
        rw [ChainOperator.read?, hy, Option.map_some]
      exact ⟨⟨t, y.1, y.2⟩ :: os, List.forall_mem_cons.mpr ⟨hread, hos⟩, rfl⟩

/-! ## C-numbers before a chain -/

/-- The word of some c-numbers before the operators of a chain. -/
def Word.beforeChain (ts : Word) (os : List ChainOperator) : Word :=
  normal (ts ++ os.map ChainOperator.source)

namespace Word

section BeforeChain

variable {ts : Word} {os : List ChainOperator} (hts : ∀ t ∈ ts, t.isOperator = false)
  (hos : IsRead os)

include hts hos

theorem beforeChain_eq :
    ts.beforeChain os = sortBy compare ts ++ os.map ChainOperator.source := by
  rw [beforeChain, normal_eq, cNumbers_append hts hos.isOperator,
    operators_append hts hos.isOperator]

theorem cNumbers_beforeChain : (ts.beforeChain os).cNumbers = sortBy compare ts := by
  rw [beforeChain_eq hts hos]
  exact cNumbers_append (fun t ht => hts t (mem_sortBy.mp ht)) hos.isOperator

theorem operators_beforeChain :
    (ts.beforeChain os).operators = os.map ChainOperator.source := by
  rw [beforeChain_eq hts hos]
  exact operators_append (fun t ht => hts t (mem_sortBy.mp ht)) hos.isOperator

theorem chain_beforeChain : (ts.beforeChain os).chain = os := by
  rw [chain, operators_beforeChain hts hos, List.filterMap_map]
  exact (List.filterMap_congr hos).trans List.filterMap_some

theorem accepts_beforeChain {M : Pattern} (hM : M.Fits os.length) :
    (ts.beforeChain os).Accepts M := by
  refine ⟨?_, (chain_beforeChain hts hos).symm ▸ hM⟩
  rw [WellFormed, operators_beforeChain hts hos]
  exact List.forall_mem_map.mpr fun x hx => by rw [hos x hx, Option.isSome_some]

end BeforeChain

theorem isCanonical_beforeChain {ts : Word} {os : List ChainOperator} (hts : ts.IsCanonical)
    (hos : IsRead os) : (ts.beforeChain os).IsCanonical :=
  built_normal (List.forall_mem_append.mpr ⟨hts.2, hos.isCanonical⟩)

end Word

/-! ## Products of c-numbers and a chain -/

/-- Whether an expression is a product of c-numbers: canonical, no sum, and without operators. -/
structure Expr.IsScalar (S : Expr) : Prop where
  isCanonical : S.IsCanonical
  notSum : ∀ ts, S ≠ .sum ts
  operators : S.operators = []

/-- The product of an expression and the operators of a chain. -/
def Expr.timesChain (S : Expr) (os : List ChainOperator) : Expr :=
  .product (S :: (os.map ChainOperator.source).map .tensor)

namespace Expr

variable {S : Expr}

/-- A product of c-numbers is 0 or a multiple of a single word. -/
theorem IsScalar.exists_words (hS : S.IsScalar) :
    S.words = [] ∨ ∃ c ts, S.words = [(c, ts)] ∧ c ≠ 0 ∧ ts.IsCanonical ∧
      ∀ t ∈ ts, t.isOperator = false := by
  have hlength : S.words.length ≤ 1 := by
    have hterms := congrArg List.length (terms_eq_words hS.isCanonical)
    rw [List.length_map] at hterms
    rw [← hterms]
    cases S with
    | sum ts => exact absurd rfl (hS.notSum ts)
    | const r => rw [terms.eq_def]; dsimp only; split <;> simp
    | tensor t => rw [terms.eq_def]; dsimp only; split <;> simp
    | prod es => rw [terms.eq_def]; dsimp only; split <;> simp
  have hcan : S.words.IsCanonical := S.isCanonical_canonicalWords_expand
  match hwords : S.words, hlength with
  | [], _ => exact .inl rfl
  | [(c, ts)], _ =>
      rw [hwords] at hcan
      have htree : S = WordSum.toExpr [(c, ts)] :=
        hwords ▸ (canonical_eq_self hS.isCanonical).symm
      have hleaves : S.leaves = ts := by
        rw [htree, leaves_toExpr hcan]
        exact List.append_nil ts
      have hscalar : S.leaves.filter Tensor.isOperator = [] := hS.operators
      rw [hleaves, List.filter_eq_nil_iff] at hscalar
      exact .inr ⟨c, ts, rfl, hcan.1.2 _ (List.mem_singleton.mpr rfl),
        hcan.2 _ (List.mem_singleton.mpr rfl), fun t ht => Bool.eq_false_iff.mpr (hscalar t ht)⟩

theorem denote_timesChain (S : Expr) (os : List ChainOperator) :
    (S.timesChain os).denote =
      S.denote * Word.eval OperatorAlgebra.gen (os.map ChainOperator.source) := by
  rw [timesChain, denote_product, List.map_cons, List.prod_cons, prod_denote_tensors]

/-- **The words of a product of c-numbers and a chain**: none, or a single one. -/
theorem IsScalar.words_timesChain (hS : S.IsScalar) :
    (∀ os, (S.timesChain os).words = []) ∨
      ∃ c ts, c ≠ 0 ∧ ts.IsCanonical ∧ (∀ t ∈ ts, t.isOperator = false) ∧
        ∀ os, IsRead os → (S.timesChain os).words = [(c, Word.beforeChain ts os)] := by
  rcases hS.exists_words with hnil | ⟨c, ts, hwords, hc, hts, hscalars⟩
  · refine .inl fun os => words_eq_nil ?_
    rw [denote_timesChain, denote_eq_eval_words, hnil, WordSum.eval_nil, zero_mul]
  · refine .inr ⟨c, ts, hc, hts, hscalars, fun os hos => words_eq_singleton hc
      (List.forall_mem_append.mpr ⟨hts.2, hos.isCanonical⟩) ?_⟩
    rw [denote_timesChain, (of_words_eq_singleton hwords).2.2, Word.eval_append, smul_mul_assoc]

theorem IsScalar.accepts_timesChain (hS : S.IsScalar) {os : List ChainOperator} (hos : IsRead os)
    {M : Pattern} (hM : M.Fits os.length) : ∀ t ∈ (S.timesChain os).words, t.2.Accepts M := by
  rcases hS.words_timesChain with hnil | ⟨c, ts, -, -, hscalars, hwords⟩
  · rw [hnil]
    exact List.forall_mem_nil _
  · rw [hwords os hos]
    exact List.forall_mem_singleton.mpr (Word.accepts_beforeChain hscalars hos hM)

theorem one_smul_of_isCanonical {e : Expr} (he : e.IsCanonical) : (1 : ℚ) • e = e :=
  eq_of_denote_eq (isCanonical_smul 1 he) he ((denote_smul 1 e).trans (one_smul ℚ e.denote))

end Expr

/-! ## The exchange -/

/-- A single word that does not contract leaves nothing. -/
theorem WordSum.toExpr_contract_of_not {o : Options} {M : Pattern} {c : ℚ} {w : Word}
    (h : ¬M.contracts w.chain = true) : (contract o M [(c, w)]).toExpr = .zero := by
  have hword : w.contract o M = [] := if_neg h
  rw [contract, List.flatMap_singleton, hword]
  rfl

section Contract

variable {o : Options} {M : Pattern} {S : Expr} {pre post : List ChainOperator}
  {a b : ChainOperator}

/-- If one of the neighbours is contracted, the sum is multiplied by the sign of the exchange. -/
theorem toExpr_contract_exchange (hS : S.IsScalar) (hos : IsRead (pre ++ a :: b :: post))
    (hmem : pre.length ∈ positions M.pairs ∨ pre.length + 1 ∈ positions M.pairs) :
    ((S.timesChain (pre ++ b :: a :: post)).words.contract o (M.exchange pre.length)).toExpr =
      (exchangeFactor a b).toRat •
        ((S.timesChain (pre ++ a :: b :: post)).words.contract o M).toExpr := by
  rcases hS.words_timesChain with hnil | ⟨c, ts, -, -, hscalars, hwords⟩
  · rw [hnil, hnil]
    rfl
  · refine toExpr_contract_of_scale (hwords _ hos) (hwords _ hos.exchange) ?_
    refine Word.contract_exchange_of_mem (Word.chain_beforeChain hscalars hos)
      (Word.chain_beforeChain hscalars hos.exchange) ?_ hmem
    rw [Word.cNumbers_beforeChain hscalars hos, Word.cNumbers_beforeChain hscalars hos.exchange]

/-- If neither neighbour is contracted, the two stand side by side in what is left, each time in the
order in which they stood. -/
theorem toExpr_contract_neighbours (hS : S.IsScalar) (hos : IsRead (pre ++ a :: b :: post))
    (hk : pre.length ∉ positions M.pairs) (hk' : pre.length + 1 ∉ positions M.pairs) :
    ∃ (c : ℚ) (ds : List Tensor), (∀ t ∈ ds, t.isOperator = false) ∧
      ((S.timesChain (pre ++ a :: b :: post)).words.contract o M).toExpr =
        .scaled c (Word.monomial (ds ++
          (M.spares 0 pre ++ [a, b] ++ M.spares (pre.length + 2) post).map ChainOperator.source)) ∧
      ((S.timesChain (pre ++ b :: a :: post)).words.contract o (M.exchange pre.length)).toExpr =
        .scaled c (Word.monomial (ds ++
          (M.spares 0 pre ++ [b, a] ++ M.spares (pre.length + 2) post).map
            ChainOperator.source)) := by
  rcases hS.words_timesChain with hnil | ⟨c, ts, hc, hts, hscalars, hwords⟩
  · refine ⟨0, [], List.forall_mem_nil _, ?_, ?_⟩
    · rw [hnil]
      rfl
    · rw [hnil]
      rfl
  · set w := ts.beforeChain (pre ++ a :: b :: post) with hw
    set w' := ts.beforeChain (pre ++ b :: a :: post) with hw'
    have hchain : w.chain = pre ++ a :: b :: post := Word.chain_beforeChain hscalars hos
    have hchain' : w'.chain = pre ++ b :: a :: post := Word.chain_beforeChain hscalars hos.exchange
    have hcontracts := Word.contracts_exchange (M := M) hchain hchain'
    rw [hwords _ hos, hwords _ hos.exchange]
    by_cases hcontr : M.contracts w.chain = true
    · refine ⟨c * (w.contractionSign M).toRat,
        sortBy compare (w.cNumbers ++ contractionTensors o.orthonormal w.chain M.pairs), ?_, ?_, ?_⟩
      · intro t ht
        rcases List.mem_append.mp (mem_sortBy.mp ht) with ht | ht
        · exact Word.isOperator_of_mem_cNumbers ht
        · exact (plain_of_mem_contractionTensors ht).2
      · have hleft : remaining w.chain M =
            M.spares 0 pre ++ [a, b] ++ M.spares (pre.length + 2) post := by
          rw [hchain, remaining_neighbours, if_neg hk, if_neg hk', List.append_assoc]
          rfl
        rw [WordSum.toExpr_contract_singleton hc (Word.isCanonical_beforeChain hts hos) hcontr,
          Word.contracted_eq, hleft]
      · have hleft : remaining w'.chain (M.exchange pre.length) =
            M.spares 0 pre ++ [b, a] ++ M.spares (pre.length + 2) post := by
          rw [hchain', remaining_exchange, if_neg hk, if_neg hk', List.append_assoc]
          rfl
        have hcNumbers : w'.cNumbers = w.cNumbers := by
          rw [hw', hw, Word.cNumbers_beforeChain hscalars hos,
            Word.cNumbers_beforeChain hscalars hos.exchange]
        rw [WordSum.toExpr_contract_singleton hc (Word.isCanonical_beforeChain hts hos.exchange)
          (hcontracts.trans hcontr), Word.contracted_eq, hleft, hcNumbers,
          Word.contractionTensors_exchange hchain hchain',
          Word.contractionSign_exchange hchain hchain' hcontr hk hk']
    · refine ⟨0, [], List.forall_mem_nil _, ?_, ?_⟩
      · exact WordSum.toExpr_contract_of_not hcontr
      · exact WordSum.toExpr_contract_of_not (hcontracts ▸ hcontr)

/-- The exchange law, with the operators as they stand in the chain. -/
theorem contract_timesChain_exchange (o : Options) (hS : S.IsScalar)
    (hos : IsRead (pre ++ a :: b :: post)) (hM : M.Fits (pre ++ a :: b :: post).length) :
    ∃ x y, contract o M (S.timesChain (pre ++ a :: b :: post)) = .ok x ∧
      contract o (M.exchange pre.length) (S.timesChain (pre ++ b :: a :: post)) = .ok y ∧
      ((pre.length ∈ positions M.pairs ∨ pre.length + 1 ∈ positions M.pairs) →
        y.result = (exchangeFactor a b).toRat • x.result) ∧
      (pre.length ∉ positions M.pairs → pre.length + 1 ∉ positions M.pairs → o.reduce = false →
        ∃ (c : ℚ) (ds : List Tensor), (∀ t ∈ ds, t.isOperator = false) ∧
          x.result = .scaled c (Word.monomial (ds ++ (M.spares 0 pre ++ [a, b] ++
            M.spares (pre.length + 2) post).map ChainOperator.source)) ∧
          y.result = .scaled c (Word.monomial (ds ++ (M.spares 0 pre ++ [b, a] ++
            M.spares (pre.length + 2) post).map ChainOperator.source))) := by
  have hM' : (M.exchange pre.length).Fits (pre ++ b :: a :: post).length := by
    intro j hj
    have hlt := hM _ (Pattern.mem_positions_exchange.mp hj)
    have hswap := Equiv.swap_apply_def pre.length (pre.length + 1) j
    simp only [List.length_append, List.length_cons] at hlt ⊢
    split_ifs at hswap <;> omega
  obtain ⟨x, hx, hxresult⟩ := exists_contract (o := o) (hS.accepts_timesChain hos hM)
  obtain ⟨y, hy, hyresult⟩ :=
    exists_contract (o := o) (hS.accepts_timesChain hos.exchange hM')
  refine ⟨x, y, hx, hy, fun hmem => ?_, fun hk hk' ho => ?_⟩
  · rw [hxresult, hyresult, toExpr_contract_exchange hS hos hmem,
      (Expr.isLinear_finish o).map_smul _ (isCanonical_toExpr_contract o M _)]
  · rw [hxresult, hyresult, finish_unreduced ho, finish_unreduced ho]
    exact toExpr_contract_neighbours hS hos hk hk'

end Contract

/-- **The exchange law.**  A product of c-numbers and a chain of well-formed operators is contracted
along a pattern, and so is the product in which two neighbours of the chain have changed places,
along the pattern that follows them.  If the pattern uses one of the two, the results differ by a
sign when both are fermions and are the same otherwise, whatever the options.  If it uses neither,
then before deltas are eliminated the results differ only in the order of the two, with the same
coefficient. -/
theorem contract_exchange {S : Expr} {pre post : List Tensor} {a b : Tensor} {M : Pattern}
    (o : Options) (hS : S.IsScalar) (hos : ∀ t ∈ pre ++ a :: b :: post, t.elementary?.isSome = true)
    (hM : M.Fits (pre ++ a :: b :: post).length) :
    ∃ x y, contract o M (.product (S :: (pre ++ a :: b :: post).map .tensor)) = .ok x ∧
      contract o (M.exchange pre.length)
        (.product (S :: (pre ++ b :: a :: post).map .tensor)) = .ok y ∧
      ((pre.length ∈ positions M.pairs ∨ pre.length + 1 ∈ positions M.pairs) →
        y.result = if a.isFermion && b.isFermion then -x.result else x.result) ∧
      (pre.length ∉ positions M.pairs → pre.length + 1 ∉ positions M.pairs → o.reduce = false →
        ∃ (c : ℚ) (ds : List Tensor), (∀ t ∈ ds, t.isOperator = false) ∧
          x.result = .scaled c (Word.monomial
            (ds ++ (M.spares 0 pre ++ [a, b] ++ M.spares (pre.length + 2) post))) ∧
          y.result = .scaled c (Word.monomial
            (ds ++ (M.spares 0 pre ++ [b, a] ++ M.spares (pre.length + 2) post)))) := by
  obtain ⟨os, hread, hsource⟩ := exists_isRead hos
  obtain ⟨pre, behind, rfl, rfl, hbehind⟩ := List.map_eq_append_iff.mp hsource
  obtain ⟨a, next, rfl, rfl, hnext⟩ := List.map_eq_cons_iff.mp hbehind
  obtain ⟨b, post, rfl, rfl, rfl⟩ := List.map_eq_cons_iff.mp hnext
  rw [← hsource, List.length_map] at hM
  obtain ⟨x, y, hx, hy, hused, hunused⟩ :=
    contract_timesChain_exchange o hS hread hM
  have hchain : ∀ c d : ChainOperator, (pre.map ChainOperator.source ++ c.source :: d.source ::
      post.map ChainOperator.source) = (pre ++ c :: d :: post).map ChainOperator.source := by
    intro c d
    rw [List.map_append, List.map_cons, List.map_cons]
  have hfermion : (a.source.isFermion && b.source.isFermion) = true ↔
      a.isFermion = true ∧ b.isFermion = true := by
    rw [ChainOperator.isFermion_source (hread a (by simp)),
      ChainOperator.isFermion_source (hread b (by simp)), Bool.and_eq_true]
  simp only [hchain, List.length_map]
  refine ⟨x, y, hx, hy, fun hmem => ?_, fun hk hk' ho => ?_⟩
  · rw [hused hmem, exchangeFactor]
    by_cases hboth : a.isFermion = true ∧ b.isFermion = true
    · rw [if_pos hboth, if_pos (hfermion.mpr hboth)]
      rfl
    · rw [if_neg hboth, if_neg (mt hfermion.mp hboth)]
      exact Expr.one_smul_of_isCanonical (isCanonical_of_contract hx)
  · simpa only [List.map_append, List.map_cons, List.map_nil, spares_map] using hunused hk hk' ho

/-- An annihilation or creation of an electron. -/
def electronOperator (a : Action) (k : ℕ) : Tensor :=
  .elementary ⟨.fermion, a⟩ (.dummy .general k)

/-- A quarter of a one-body amplitude. -/
def quarterAmplitude : Expr :=
  .prod [.const (1 / 4), .tensor (.cNumber "f" [.dummy .general 5] [.dummy .general 6] .plain)]

/-- The amplitude before two annihilations and two creations. -/
def quarterScattering : Expr :=
  .product (quarterAmplitude :: ([electronOperator .annihilation 1] ++
    electronOperator .annihilation 2 :: electronOperator .creation 3 ::
      [electronOperator .creation 4]).map .tensor)

/-- The two operators in the middle have changed places. -/
def quarterExchanged : Expr :=
  .product (quarterAmplitude :: ([electronOperator .annihilation 1] ++
    electronOperator .creation 3 :: electronOperator .annihilation 2 ::
      [electronOperator .creation 4]).map .tensor)

/-- The first operator with the last one. -/
def outermost : Pattern :=
  ⟨[⟨0, 3⟩], by decide⟩

/-- Contracted crosswise, the four operators change their sign when the two in the middle change
places; contracted from end to end, they leave the two in the order in which they stand. -/
theorem contract_exchange_quarterScattering :
    (∃ x y, contract {} crossed quarterScattering = .ok x ∧
      contract {} (crossed.exchange 1) quarterExchanged = .ok y ∧
      x.vanished = 0 ∧ y.result = -x.result) ∧
    ∃ x y c ds, contract {} outermost quarterScattering = .ok x ∧
      contract {} (outermost.exchange 1) quarterExchanged = .ok y ∧ x.vanished = 0 ∧
      x.result = .scaled c (Word.monomial
        (ds ++ [electronOperator .annihilation 2, electronOperator .creation 3])) ∧
      y.result = .scaled c (Word.monomial
        (ds ++ [electronOperator .creation 3, electronOperator .annihilation 2])) := by
  have hscalar : quarterAmplitude.IsScalar :=
    ⟨Expr.canonical_eq_self_iff.mp (by decide +kernel), (fun _ h => nomatch h), rfl⟩
  have hvanished : ∀ {M : Pattern} {x : Evaluation}, contract {} M quarterScattering = .ok x →
      (contract {} M quarterScattering).map Evaluation.vanished = .ok 0 → x.vanished = 0 := by
    intro M x hx h
    rw [hx] at h
    exact Except.ok.inj h
  have hread : ∀ t ∈ [electronOperator .annihilation 1] ++ electronOperator .annihilation 2 ::
      electronOperator .creation 3 :: [electronOperator .creation 4], t.elementary?.isSome = true :=
    by decide
  have hexchange := fun (M : Pattern) (hM : M.Fits 4) => contract_exchange {} hscalar hread hM
  constructor
  · obtain ⟨x, y, hx, hy, hused, -⟩ := hexchange crossed (by unfold Pattern.Fits; decide)
    exact ⟨x, y, hx, hy, hvanished hx (by decide +kernel), hused (by decide)⟩
  · obtain ⟨x, y, hx, hy, -, hunused⟩ := hexchange outermost (by unfold Pattern.Fits; decide)
    obtain ⟨c, ds, -, hxresult, hyresult⟩ := hunused (by decide) (by decide) rfl
    exact ⟨x, y, c, ds, hx, hy, hvanished hx (by decide +kernel), hxresult, hyresult⟩

end SecondQuant
