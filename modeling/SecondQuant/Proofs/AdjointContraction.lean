import SecondQuant.Proofs.Failures
import SecondQuant.Proofs.MirroredPattern
import SecondQuant.Proofs.Replacement

/-!
# Contracting an adjoint

Contracting the adjoint of an expression along the mirrored pattern gives the adjoint of the
contraction, up to the orientation of the tensors that the pairs leave: a contraction writes the
smaller index of a delta or an overlap above, and taking the adjoint afterwards puts it below.

* `Tensor.oriented`, `Expr.oriented` — deltas and overlaps with the smaller index above.
* `Word.eval_contract_adjoint` — a single word.
* `contract_adjoint` — **contraction commutes with the adjoint** up to orientation.
-/

namespace SecondQuant

open OperatorAlgebra (gen)

/-! ## Orientation -/

/-- A plain delta or overlap of two indices with the smaller one above; any other tensor stays as it
is. -/
def Tensor.oriented (t : Tensor) : Tensor :=
  match t.upper, t.lower with
  | [p], [q] =>
      if t.ladder = none ∧ t.symmetry = .plain ∧ (t.name = deltaName ∨ t.name = overlapName) ∧
          compare p q = .gt then
        { t with upper := [q], lower := [p] }
      else t
  | _, _ => t

/-- The canonical form of an expression with its deltas and overlaps oriented. -/
def Expr.oriented (e : Expr) : Expr :=
  (e.replace fun t => .tensor t.oriented).canonical

namespace Tensor

theorem ladder_oriented (t : Tensor) : t.oriented.ladder = t.ladder := by
  unfold oriented
  split
  · split <;> rfl
  · rfl

theorem isOperator_oriented (t : Tensor) : t.oriented.isOperator = t.isOperator := by
  rw [isOperator, ladder_oriented, isOperator]

/-- A delta or overlap and its conjugate have the same orientation. -/
theorem oriented_adjoint_cNumber {name : String} (h : name = deltaName ∨ name = overlapName)
    (p q : Index) :
    (cNumber name [p] [q] .plain).adjoint.oriented = (cNumber name [p] [q] .plain).oriented := by
  have heq : ∀ i j : Index, (cNumber name [i] [j] .plain).oriented =
      if compare i j = .gt then cNumber name [j] [i] .plain else cNumber name [i] [j] .plain := by
    intro i j
    by_cases hij : compare i j = .gt
    · rw [if_pos hij]
      exact if_pos ⟨rfl, rfl, h, hij⟩
    · rw [if_neg hij]
      exact if_neg fun hcond => hij hcond.2.2.2
  show (cNumber name [q] [p] .plain).oriented = _
  rw [heq, heq]
  cases hpq : compare p q with
  | lt => rw [if_pos (Std.OrientedCmp.gt_of_lt hpq), if_neg nofun]
  | eq =>
      obtain rfl := Std.LawfulEqOrd.eq_of_compare hpq
      rw [ite_self, ite_self]
  | gt => rw [if_neg (by rw [Std.OrientedCmp.lt_of_gt hpq]; nofun), if_pos rfl]

theorem oriented_adjoint_between {name : String} (h : name = deltaName ∨ name = overlapName)
    (i j : Index) : (between name i j).adjoint.oriented = (between name i j).oriented := by
  unfold between
  split
  · exact oriented_adjoint_cNumber h i j
  · exact oriented_adjoint_cNumber h j i

end Tensor

theorem oriented_adjoint_of_mem_contractionTensors {orthonormal : Bool}
    {chain : List ChainOperator} {ps : List Pair} {t : Tensor}
    (h : t ∈ contractionTensors orthonormal chain ps) : t.adjoint.oriented = t.oriented := by
  obtain ⟨l, -, hl⟩ := List.mem_filterMap.mp h
  unfold Link.tensor? at hl
  split at hl
  · split at hl
    · cases hl
    · obtain rfl := Option.some.inj hl
      exact Tensor.oriented_adjoint_between (.inl rfl) _ _
  · obtain rfl := Option.some.inj hl
    exact Tensor.oriented_adjoint_between (.inr rfl) _ _

/-- What a tensor is worth when orientation does not matter. -/
noncomputable def OperatorAlgebra.orientedGen (t : Tensor) : OperatorAlgebra :=
  gen t.oriented

open OperatorAlgebra (orientedGen)

/-- Orienting an expression evaluates its tensors without regard to orientation. -/
theorem Expr.denote_oriented (e : Expr) : e.oriented.denote = e.eval orientedGen := by
  rw [oriented, denote_canonical, denote, eval_replace]
  rfl

/-! ## Words -/

namespace Word

theorem eval_orientedGen (w : Word) :
    w.eval orientedGen = eval gen (w.map Tensor.oriented) := by
  rw [eval, eval, List.map_map]
  rfl

theorem filter_map_oriented (p : Bool → Bool) (w : Word) :
    ((w.map Tensor.oriented).filter fun t => p t.isOperator) =
      (w.filter fun t => p t.isOperator).map Tensor.oriented := by
  rw [List.filter_map]
  simp only [Function.comp_def, Tensor.isOperator_oriented]

/-- Two words with the same operators whose c-numbers differ in order and orientation are worth the
same. -/
theorem eval_orientedGen_congr {u v : Word}
    (hc : (u.cNumbers.map Tensor.oriented).Perm (v.cNumbers.map Tensor.oriented))
    (ho : u.operators = v.operators) : u.eval orientedGen = v.eval orientedGen := by
  have hcNumbers : ∀ w : Word, cNumbers (w.map Tensor.oriented) = w.cNumbers.map Tensor.oriented :=
    filter_map_oriented not
  have hoperators : ∀ w : Word,
      operators (w.map Tensor.oriented) = w.operators.map Tensor.oriented :=
    filter_map_oriented id
  have hnormal : normal (u.map Tensor.oriented) = normal (v.map Tensor.oriented) := by
    apply normal_congr
    · rwa [hcNumbers, hcNumbers]
    · rw [hoperators, hoperators, ho]
  rw [eval_orientedGen, eval_orientedGen,
    ← eval_normal OperatorAlgebra.lawful_gen.commute (u.map Tensor.oriented), hnormal,
    eval_normal OperatorAlgebra.lawful_gen.commute]

theorem cNumbers_contracted_perm (o : Options) (M : Pattern) (w : Word) :
    (w.contracted o M).cNumbers.Perm
      (w.cNumbers ++ contractionTensors o.orthonormal w.chain M.pairs) := by
  rw [← cNumbers_contractedLetters]
  exact (normal_perm _).filter _

section Adjoint

variable {o : Options} {w : Word} {M : Pattern} {n : ℕ} (hn : w.chain.length = n)
  (hM : M.Fits n)

include hn

theorem contracts_adjoint : (M.mirror hM).contracts w.adjoint.chain = M.contracts w.chain := by
  subst hn
  rw [chain_adjoint]
  exact Pattern.contracts_mirror hM

theorem contractionSign_adjoint (hc : M.contracts w.chain = true) :
    w.adjoint.contractionSign (M.mirror hM) = w.contractionSign M := by
  subst hn
  rw [contractionSign, chain_adjoint]
  exact linksSign_mirror hM hc

/-- The contracted adjoint has the operators of the adjoint of the contracted word. -/
theorem operators_contracted_adjoint :
    (w.adjoint.contracted o (M.mirror hM)).operators = (w.contracted o M).adjoint.operators := by
  subst hn
  rw [operators_contracted, chain_adjoint, remaining_mirror hM, operators_adjoint,
    operators_contracted, List.map_reverse, List.map_map, List.map_map]
  rfl

/-- The c-numbers of the contracted adjoint are those of the adjoint of the contracted word, up to
orientation. -/
theorem cNumbers_contracted_adjoint :
    ((w.adjoint.contracted o (M.mirror hM)).cNumbers.map Tensor.oriented).Perm
      ((w.contracted o M).adjoint.cNumbers.map Tensor.oriented) := by
  subst hn
  have htensors : contractionTensors o.orthonormal w.adjoint.chain (M.mirror hM).pairs =
      contractionTensors o.orthonormal w.chain M.pairs := by
    rw [chain_adjoint]
    exact contractionTensors_mirror hM o.orthonormal
  have hadjoint := (cNumbers_contracted_perm o (M.mirror hM) w.adjoint).trans
    ((cNumbers_adjoint_perm w).append_right _)
  have hcontracted := (cNumbers_adjoint_perm (w.contracted o M)).trans
    ((cNumbers_contracted_perm o M w).map Tensor.adjoint)
  refine (hadjoint.map _).trans (.trans (.of_eq ?_) (hcontracted.map _).symm)
  rw [htensors, List.map_append, List.map_append, List.map_append]
  congr 1
  rw [List.map_map]
  exact List.map_congr_left fun t ht => (oriented_adjoint_of_mem_contractionTensors ht).symm

/-- **Contracting the adjoint of a word** along the mirrored pattern: with the same sign, the
adjoint of the contracted word up to orientation. -/
theorem eval_contract_adjoint :
    WordSum.eval orientedGen (w.adjoint.contract o (M.mirror hM)) =
      Combination.eval (fun u => eval orientedGen u.adjoint) (w.contract o M) := by
  rw [contract, contract, contracts_adjoint hn hM]
  by_cases hc : M.contracts w.chain = true
  · have hword : (w.adjoint.contracted o (M.mirror hM)).eval orientedGen =
        (w.contracted o M).adjoint.eval orientedGen :=
      eval_orientedGen_congr (cNumbers_contracted_adjoint hn hM)
        (operators_contracted_adjoint hn hM)
    rw [if_pos hc, if_pos hc, contractionSign_adjoint hn hM hc, WordSum.eval_cons,
      WordSum.eval_nil, Combination.eval_cons, Combination.eval_nil, hword]
  · rw [if_neg hc, if_neg hc]
    rfl

end Adjoint

/-- A word whose operators are as many as a pattern asks for is accepted when they are well
formed. -/
theorem accepts_iff_wellFormed {w : Word} {M : Pattern} {n : ℕ} (hn : w.operators.length = n)
    (hM : M.Fits n) : w.Accepts M ↔ w.WellFormed :=
  ⟨And.left, fun h => ⟨h, by rwa [length_chain h, hn]⟩⟩

end Word

/-! ## Expressions -/

section Expressions

variable {o : Options} {M : Pattern} {n : ℕ} {e : Expr}

/-- The value of an adjoint is the sum of the values of the adjoint words. -/
theorem Expr.eval_adjoint {A : Type} [Ring A] [Algebra ℚ A] (g : Tensor → A) (e : Expr) :
    e.adjoint.eval g = Combination.eval (fun w => Word.eval g w.adjoint) e.words := by
  have htree : e.adjoint = e.adjoint.words.toExpr :=
    (canonical_eq_self (isCanonical_adjoint e)).symm
  rw [htree, WordSum.eval_toExpr, words_adjoint, WordSum.eval, Combination.eval_collect,
    WordSum.adjoints, Combination.eval_map]

/-- The words of an expression have as many operators as its terms. -/
theorem length_operators_of_mem_words (he : e.IsCanonical)
    (hn : ∀ t ∈ e.terms, t.2.operators.length = n) {t : ℚ × Word} (ht : t ∈ e.words) :
    t.2.operators.length = n := by
  rw [Expr.terms_eq_words he] at hn
  rw [← Word.operators_monomial]
  exact hn _ (List.mem_map_of_mem ht)

/-- The adjoint is evaluated exactly when the expression is. -/
theorem accepts_adjoint (hlength : ∀ t ∈ e.words, t.2.operators.length = n) (hM : M.Fits n) :
    (∀ t ∈ e.adjoint.words, t.2.Accepts (M.mirror hM)) ↔ ∀ t ∈ e.words, t.2.Accepts M := by
  simp only [e.words_adjoint_perm.mem_iff, WordSum.adjoints, List.forall_mem_map]
  refine forall₂_congr fun t ht => ?_
  have hadjoint : t.2.adjoint.operators.length = n := by
    rw [Word.operators_adjoint, List.length_reverse, List.length_map, hlength t ht]
  rw [Word.accepts_iff_wellFormed hadjoint (Pattern.fits_mirror hM),
    Word.accepts_iff_wellFormed (hlength t ht) hM, Word.wellFormed_adjoint]

/-- As many words of the adjoint vanish. -/
theorem countP_contracts_adjoint (hlength : ∀ t ∈ e.words, t.2.chain.length = n)
    (hM : M.Fits n) :
    (e.adjoint.words.countP fun t => !(M.mirror hM).contracts t.2.chain) =
      e.words.countP fun t => !M.contracts t.2.chain := by
  rw [e.words_adjoint_perm.countP_eq, WordSum.adjoints, List.countP_map]
  refine List.countP_congr fun t ht => ?_
  rw [Function.comp, Word.contracts_adjoint (hlength t ht) hM]

/-- Contracting the words of the adjoint: the adjoint of the contraction, up to orientation. -/
theorem oriented_toExpr_contract_adjoint (hlength : ∀ t ∈ e.words, t.2.chain.length = n)
    (hM : M.Fits n) :
    (e.adjoint.words.contract o (M.mirror hM)).toExpr.oriented =
      (e.words.contract o M).toExpr.adjoint.oriented := by
  have hcan : (e.words.contract o M).IsCanonical :=
    WordSum.isCanonical_contract e.isCanonical_canonicalWords_expand
  refine Expr.eq_of_denote_eq (Expr.isCanonical_canonical _) (Expr.isCanonical_canonical _) ?_
  rw [Expr.denote_oriented, Expr.denote_oriented, WordSum.eval_toExpr, WordSum.eval_contract,
    Expr.words_adjoint, Combination.eval_collect, WordSum.adjoints, Combination.eval_map,
    Expr.eval_adjoint, Expr.words_toExpr hcan, WordSum.combination_eval_contract]
  exact Combination.eval_congr fun t ht => Word.eval_contract_adjoint (hlength t ht) hM

/-- **Contraction commutes with the adjoint.**  If all terms of a canonical expression have the same
number of operators and a pattern fits these, the adjoint is contracted along the mirrored pattern
exactly when the expression is contracted along the pattern.  Then as many terms vanish, and before
deltas are eliminated the result is the adjoint of the result, up to the orientation of deltas and
overlaps. -/
theorem contract_adjoint (ho : o.reduce = false) (he : e.IsCanonical)
    (hn : ∀ t ∈ e.terms, t.2.operators.length = n) (hM : M.Fits n) :
    ((∃ y, contract o (M.mirror hM) e.adjoint = .ok y) ↔ ∃ x, contract o M e = .ok x) ∧
    ∀ x y, contract o M e = .ok x → contract o (M.mirror hM) e.adjoint = .ok y →
      y.vanished = x.vanished ∧ y.result.oriented = x.result.adjoint.oriented := by
  have hlength := fun t => length_operators_of_mem_words he hn (t := t)
  constructor
  · simp only [contract_eq_ok_iff, exists_and_left, exists_eq, and_true]
    exact accepts_adjoint hlength hM
  · intro x y hx hy
    obtain ⟨haccepts, rfl⟩ := contract_eq_ok_iff.mp hx
    obtain ⟨-, rfl⟩ := contract_eq_ok_iff.mp hy
    have hchain : ∀ t ∈ e.words, t.2.chain.length = n := fun t ht =>
      (Word.length_chain (haccepts t ht).1).trans (hlength t ht)
    refine ⟨countP_contracts_adjoint hchain hM, ?_⟩
    simp only [finish_unreduced ho]
    exact oriented_toExpr_contract_adjoint hchain hM

end Expressions

/-- Two products of three operators; the first two operators of one of them contract. -/
def creationsAndAnnihilations : Expr :=
  .sum [(2, .prod [.annihilation .fermion (.dummy .general 1),
      .creation .fermion (.dummy .general 2), .creation .fermion (.dummy .general 3)]),
    (1, .prod [.annihilation .fermion (.dummy .general 1),
      .annihilation .fermion (.dummy .general 2), .creation .fermion (.dummy .general 3)])]

/-- The contraction of its first two operators. -/
def neighboursEvaluation : Evaluation where
  source := creationsAndAnnihilations
  result := .prod [.const 2,
    .tensor (.cNumber deltaName [.dummy .general 1] [.dummy .general 2] .plain),
    .creation .fermion (.dummy .general 3)]
  evaluated := 2
  vanished := 1
  reduced := false

theorem neighbours_fits : neighbours.Fits 3 := by
  unfold Pattern.Fits
  decide

/-- Contracting the last two operators of the adjoint leaves a delta that is written the other way
round than in the adjoint of the result, and otherwise the same. -/
theorem contract_adjoint_neighbours :
    contract {} neighbours creationsAndAnnihilations = .ok neighboursEvaluation ∧
      ∃ y, contract {} (neighbours.mirror neighbours_fits) creationsAndAnnihilations.adjoint =
          .ok y ∧
        y.vanished = 1 ∧ y.result ≠ neighboursEvaluation.result.adjoint ∧
        y.result.oriented = neighboursEvaluation.result.adjoint.oriented := by
  have hx : contract {} neighbours creationsAndAnnihilations = .ok neighboursEvaluation := by
    decide +kernel
  have hdiffers : (contract {} (neighbours.mirror neighbours_fits)
      creationsAndAnnihilations.adjoint).map Evaluation.result ≠
      .ok neighboursEvaluation.result.adjoint := by
    decide +kernel
  have hcan : creationsAndAnnihilations.IsCanonical :=
    Expr.canonical_eq_self_iff.mp (by decide +kernel)
  obtain ⟨hexists, hresult⟩ := contract_adjoint (o := {}) rfl hcan (by decide) neighbours_fits
  obtain ⟨y, hy⟩ := hexists.mpr ⟨_, hx⟩
  obtain ⟨hvanished, horiented⟩ := hresult _ y hx hy
  rw [hy] at hdiffers
  exact ⟨hx, y, hy, hvanished, fun h => hdiffers (congrArg _ h), horiented⟩

end SecondQuant
