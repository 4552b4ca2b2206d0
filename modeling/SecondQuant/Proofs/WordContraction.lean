import SecondQuant.Proofs.CanonicalAlgebra
import SecondQuant.Proofs.ContractedWord

/-!
# Contraction as a linear map on words

In canonical form an expression is a sum of words, and contracting it along a pattern is a linear
map: each word becomes a single weighted word or vanishes.  Nothing of the contraction depends on
the rank of a term or on how the sum is written down, so everything about `contract` can be read off
a single word.

* `denote_contractedProduct` — the product of a term is worth its sign times its letters.
* `Word.Accepts`, `Word.outcome` — when a term is evaluated, and what becomes of it.
* `WordSum.contract` — the linear extension of `Word.contract`.
* `contract_eq_ok_iff` — when the contraction of an expression succeeds, and with what.
-/

namespace SecondQuant

/-! ## The product of a term -/

section Product

open OperatorAlgebra (gen)

theorem prod_denote_tensors (ts : List Tensor) :
    ((ts.map Expr.tensor).map Expr.denote).prod = Word.eval gen ts := by
  rw [List.map_map]
  rfl

theorem prod_denote_signFactors (s : Sign) :
    ((signFactors s).map Expr.denote).prod = s.toRat • (1 : OperatorAlgebra) := by
  cases s with
  | plus => exact (one_smul ℚ 1).symm
  | minus =>
      rw [signFactors, List.map_singleton, List.prod_singleton, Expr.denote, Expr.eval_const,
        Sign.toRat]

theorem prod_denote_values (orthonormal : Bool) (ls : List Link) :
    ((ls.map (Link.value orthonormal)).map Expr.denote).prod =
      Word.eval gen (ls.filterMap (Link.tensor? orthonormal)) := by
  induction ls with
  | nil => rfl
  | cons l ls ih =>
      rw [List.map_cons, List.map_cons, List.prod_cons, ih, Link.value_eq, List.filterMap_cons]
      cases l.tensor? orthonormal with
      | none => exact (congrArg (· * _) (Expr.eval_one gen)).trans (one_mul _)
      | some t => exact (Word.eval_cons gen t _).symm

/-- The product of a term is worth its sign times its letters. -/
theorem denote_contractedProduct (o : Options) (M : Pattern) (w : Word) :
    (contractedProduct o M (w.cNumbers.map Expr.tensor) w.chain).denote =
      (w.contractionSign M).toRat • Word.eval gen (w.contractedLetters o M) := by
  rw [contractedProduct, Expr.denote_product, residue_eq]
  simp only [List.map_append, List.prod_append]
  rw [prod_denote_tensors, prod_denote_signFactors, prod_denote_values, prod_denote_tensors,
    Word.contractedLetters, Word.eval_append, Word.eval_append, Word.contractionSign,
    contractionTensors, mul_smul_comm, mul_one, smul_mul_assoc, smul_mul_assoc]

end Product

theorem isCanonical_contractedProduct {o : Options} {M : Pattern} {w : Word}
    (hw : w.IsCanonical) :
    (contractedProduct o M (w.cNumbers.map Expr.tensor) w.chain).IsCanonical := by
  have hc : ∀ e ∈ w.cNumbers.map Expr.tensor, e.IsCanonical :=
    List.forall_mem_map.mpr fun t ht => .tensor (hw.2 t (List.mem_filter.mp ht).1)
  have hs : ∀ e ∈ signFactors (w.contractionSign M), e.IsCanonical := by
    cases w.contractionSign M with
    | plus => exact List.forall_mem_nil _
    | minus => exact List.forall_mem_singleton.mpr (.const (-1))
  have hv : ∀ e ∈ (links w.chain M.pairs).map (Link.value o.orthonormal), e.IsCanonical := by
    refine List.forall_mem_map.mpr ?_
    intro l _
    rw [Link.value_eq]
    cases ht : l.tensor? o.orthonormal with
    | none => exact .const 1
    | some t => exact Expr.isCanonical_plain (l.plain_of_tensor? ht).1
  have hr : ∀ e ∈ residue w.chain M, e.IsCanonical := by
    rw [residue_eq]
    refine List.forall_mem_map.mpr (List.forall_mem_map.mpr ?_)
    intro x hx
    exact .tensor (Word.isCanonical_of_mem_chain hw (mem_of_mem_remaining hx))
  have happend : ∀ {as bs : List Expr}, (∀ e ∈ as, e.IsCanonical) → (∀ e ∈ bs, e.IsCanonical) →
      ∀ e ∈ as ++ bs, e.IsCanonical := fun ha hb => List.forall_mem_append.mpr ⟨ha, hb⟩
  exact Expr.isCanonical_product (happend (happend (happend hc hs) hv) hr)

/-! ## One term -/

/-- Whether the operators of a word are well formed and a pattern stays inside their chain. -/
def Word.Accepts (M : Pattern) (w : Word) : Prop :=
  w.WellFormed ∧ M.Fits w.chain.length

/-- The outcome of a term whose word accepts the pattern. -/
def Word.outcome (o : Options) (M : Pattern) (w : Word) : Outcome :=
  (firstObstruction? (links w.chain M.pairs)).getD
    (.value (contractedProduct o M (w.cNumbers.map Expr.tensor) w.chain))

/-- A term is evaluated when its word accepts the pattern, whatever its rank. -/
theorem contractTerm_monomial {o : Options} {M : Pattern} {rank : Nat} {w : Word}
    {x : Outcome} :
    contractTerm o M rank w.monomial = .ok x ↔ w.Accepts M ∧ x = w.outcome o M := by
  rw [contractTerm, bind_eq_ok_iff, Word.Accepts, ← Pattern.outOfChain?_eq_none_iff]
  simp only [Word.operatorChain_monomial, Word.scalars_monomial]
  constructor
  · rintro ⟨chain, ⟨hw, rfl⟩, h⟩
    split at h
    · cases h
    · next hfit => exact ⟨⟨hw, hfit⟩, (Except.ok.inj h).symm⟩
  · rintro ⟨⟨hw, hfit⟩, rfl⟩
    refine ⟨w.chain, ⟨hw, rfl⟩, ?_⟩
    rw [hfit]
    rfl

theorem Word.outcome_of_contracts {o : Options} {M : Pattern} {w : Word} (h : w.Accepts M)
    (hc : M.contracts w.chain = true) :
    w.outcome o M = .value (contractedProduct o M (w.cNumbers.map Expr.tensor) w.chain) := by
  rw [outcome, (firstObstruction?_eq_none_iff h.2).mpr hc, Option.getD_none]

theorem Word.outcome_of_not_contracts {o : Options} {M : Pattern} {w : Word} (h : w.Accepts M)
    (hc : M.contracts w.chain = false) : ∃ p c, w.outcome o M = .vanishes p c := by
  have hne : firstObstruction? (links w.chain M.pairs) ≠ none := fun hn =>
    Bool.false_ne_true (hc.symm.trans ((firstObstruction?_eq_none_iff h.2).mp hn))
  obtain ⟨x, hx⟩ := Option.ne_none_iff_exists'.mp hne
  rw [outcome, hx, Option.getD_some]
  exact isVanishing_of_firstObstruction? hx

theorem Word.isVanishing_outcome {o : Options} {M : Pattern} {w : Word} (h : w.Accepts M) :
    (w.outcome o M).isVanishing = !M.contracts w.chain := by
  cases hc : M.contracts w.chain with
  | true => rw [outcome_of_contracts h hc]; rfl
  | false =>
      obtain ⟨p, c, hx⟩ := outcome_of_not_contracts (o := o) h hc
      rw [hx]
      rfl

/-! ## All terms -/

/-- The contraction of a sum of words: that of its words, collected. -/
def WordSum.contract (o : Options) (M : Pattern) (p : WordSum) : WordSum :=
  Combination.collect Word.cmp (p.flatMap fun t => Combination.scale t.1 (t.2.contract o M))

/-- The contraction of a canonical sum is canonical. -/
theorem WordSum.isCanonical_contract {o : Options} {M : Pattern} {p : WordSum}
    (hp : p.IsCanonical) : (p.contract o M).IsCanonical := by
  apply built_collect
  intro t ht
  obtain ⟨s, hs, ht⟩ := List.mem_flatMap.mp ht
  obtain ⟨r, hr, rfl⟩ := List.mem_map.mp ht
  exact (Word.isCanonical_contract (hp.2 s hs)).2 r hr

/-- The contraction of a single word is a single term when no pair is obstructed. -/
theorem WordSum.toExpr_contract_singleton {o : Options} {M : Pattern} {c : ℚ} {w : Word}
    (hc : c ≠ 0) (hw : w.IsCanonical) (h : M.contracts w.chain = true) :
    (WordSum.contract o M [(c, w)]).toExpr =
      Expr.scaled (c * (w.contractionSign M).toRat) (w.contracted o M).monomial := by
  have hword : w.contract o M = [((w.contractionSign M).toRat, w.contracted o M)] := if_pos h
  have hcan : (w.contract o M).IsCanonical := Word.isCanonical_contract hw
  rw [hword] at hcan
  have hne : c * (w.contractionSign M).toRat ≠ 0 :=
    mul_ne_zero hc (w.contractionSign M).toRat_ne_zero
  have hsingle := built_single hne (hcan.2 _ List.mem_cons_self)
  rw [contract, List.flatMap_singleton, hword]
  show toExpr (Combination.collect Word.cmp
    [(c * (w.contractionSign M).toRat, w.contracted o M)]) = _
  rw [Combination.collect_eq_self hsingle.1]
  rfl

/-- The terms of a sum of words are evaluated when every word accepts the pattern. -/
theorem contractTerms_monomials {o : Options} {M : Pattern} {p : WordSum}
    {xs : List (ℚ × Outcome)} :
    contractTerms o M (p.map fun t => (t.1, t.2.monomial)) = .ok xs ↔
      (∀ t ∈ p, t.2.Accepts M) ∧ xs = p.map fun t => (t.1, t.2.outcome o M) := by
  -- the rank grows along the list, so the statement is proved from every rank on
  have hfrom : ∀ (p : WordSum) (n : Nat) (xs : List (ℚ × Outcome)),
      List.Forall₂ (fun t x => (do
        let y ← contractTerm o M t.2 t.1.2
        return (t.1.1, y)) = .ok x) ((p.map fun t => (t.1, t.2.monomial)).zipIdx n) xs ↔
      (∀ t ∈ p, t.2.Accepts M) ∧ xs = p.map fun t => (t.1, t.2.outcome o M) := by
    intro p
    induction p with
    | nil =>
        intro n xs
        rw [List.map_nil, List.zipIdx_nil, List.forall₂_nil_left_iff]
        exact ⟨fun h => ⟨List.forall_mem_nil _, h⟩, fun h => h.2⟩
    | cons t p ih =>
        intro n xs
        rw [List.map_cons, List.zipIdx_cons, List.forall₂_cons_left_iff, List.forall_mem_cons]
        simp only [ih]
        simp only [bind_eq_ok_iff, contractTerm_monomial]
        constructor
        · rintro ⟨x, ys, ⟨y, ⟨ht, rfl⟩, hx⟩, ⟨hp, rfl⟩, rfl⟩
          obtain rfl := Except.ok.inj hx
          exact ⟨⟨ht, hp⟩, rfl⟩
        · rintro ⟨⟨ht, hp⟩, rfl⟩
          exact ⟨_, _, ⟨_, ⟨ht, rfl⟩, rfl⟩, ⟨hp, rfl⟩, rfl⟩
  rw [contractTerms, mapM_eq_ok_iff]
  exact hfrom p 0 xs

section Sum

open OperatorAlgebra (gen)

/-- A linear extension over a contracted sum is one over the sum itself. -/
theorem WordSum.combination_eval_contract {N : Type} [AddCommMonoid N] [Module ℚ N] (f : Word → N)
    (o : Options) (M : Pattern) (p : WordSum) :
    Combination.eval f (p.contract o M) =
      Combination.eval (fun w => Combination.eval f (w.contract o M)) p := by
  rw [contract, Combination.eval_collect, Combination.eval_flatMap]
  simp only [Combination.eval_scale]
  rfl

theorem WordSum.eval_contract {A : Type} [Ring A] [Algebra ℚ A] (g : Tensor → A) (o : Options)
    (M : Pattern) (p : WordSum) :
    (p.contract o M).eval g = Combination.eval (fun w => WordSum.eval g (w.contract o M)) p :=
  combination_eval_contract (Word.eval g) o M p

/-- The product of a term is worth the contraction of its word. -/
theorem denote_contractedProduct_eq {o : Options} {M : Pattern} {w : Word}
    (hc : M.contracts w.chain = true) :
    (contractedProduct o M (w.cNumbers.map Expr.tensor) w.chain).denote =
      WordSum.eval gen (w.contract o M) := by
  rw [denote_contractedProduct, Word.contract, if_pos hc, WordSum.eval_cons, WordSum.eval_nil,
    Word.contracted, Word.eval_normal OperatorAlgebra.lawful_gen.commute, add_zero]

/-- The terms that do not vanish, with their coefficients. -/
theorem eval_outcomes {o : Options} {M : Pattern} {p : WordSum}
    (h : ∀ t ∈ p, t.2.Accepts M) :
    Combination.eval Expr.denote ((p.map fun t => (t.1, t.2.outcome o M)).filterMap
      fun x => x.2.value?.map fun e => (x.1, e)) =
    Combination.eval (fun w => WordSum.eval gen (w.contract o M)) p := by
  induction p with
  | nil => rfl
  | cons t p ih =>
      obtain ⟨ht, hp⟩ := List.forall_mem_cons.mp h
      rw [List.map_cons, List.filterMap_cons, Combination.eval_cons, ← ih hp]
      cases hc : M.contracts t.2.chain with
      | true =>
          rw [Word.outcome_of_contracts ht hc, ← denote_contractedProduct_eq hc]
          exact Combination.eval_cons _ _ _
      | false =>
          obtain ⟨q, c, hx⟩ := Word.outcome_of_not_contracts (o := o) ht hc
          rw [hx, Word.contract, hc, if_neg Bool.false_ne_true, WordSum.eval_nil, smul_zero,
            zero_add]
          rfl

/-- The sum of the outcomes is the tree of the contracted sum of words. -/
theorem sumOfOutcomes_eq {o : Options} {M : Pattern} {p : WordSum} (hp : p.IsCanonical)
    (h : ∀ t ∈ p, t.2.Accepts M) :
    sumOfOutcomes (p.map fun t => (t.1, t.2.outcome o M)) = (p.contract o M).toExpr := by
  refine Expr.eq_of_denote_eq (Expr.isCanonical_weightedSum ?_)
    (Expr.isCanonical_toExpr (WordSum.isCanonical_contract hp)) ?_
  · intro s hs
    obtain ⟨x, hx, hs⟩ := List.mem_filterMap.mp hs
    obtain ⟨t, ht, rfl⟩ := List.mem_map.mp hx
    cases hc : M.contracts t.2.chain with
    | true =>
        rw [Word.outcome_of_contracts (h t ht) hc] at hs
        obtain rfl := Option.some.inj hs
        exact isCanonical_contractedProduct (hp.2 t ht)
    | false =>
        obtain ⟨q, c, hx⟩ := Word.outcome_of_not_contracts (o := o) (h t ht) hc
        rw [hx] at hs
        cases hs
  · rw [sumOfOutcomes, Expr.denote_weightedSum, eval_outcomes h, Expr.denote,
      WordSum.eval_toExpr, WordSum.eval_contract]

end Sum

/-! ## Expressions -/

/-- The canonical sum of words of an expression. -/
abbrev Expr.words (e : Expr) : WordSum :=
  e.expand Tensor.canonicalWords

/-- The contraction of an expression succeeds when all its words accept the pattern.  It is the
contraction of its sum of words, and the words with a pair that cannot be contracted are counted. -/
theorem contract_eq_ok_iff {o : Options} {M : Pattern} {e : Expr} {x : Evaluation} :
    contract o M e = .ok x ↔
      (∀ t ∈ e.words, t.2.Accepts M) ∧
      x = { source := e.canonical
            result := finish o (e.words.contract o M).toExpr
            evaluated := e.words.length
            vanished := e.words.countP fun t => !M.contracts t.2.chain
            reduced := o.reduce } := by
  have hp := e.isCanonical_canonicalWords_expand
  have hterms : e.canonical.terms = e.words.map fun t => (t.1, t.2.monomial) :=
    WordSum.terms_toExpr hp
  have hcount : (∀ t ∈ e.words, t.2.Accepts M) →
      (e.words.map fun t => (t.1, t.2.outcome o M)).countP (fun x => x.2.isVanishing) =
        e.words.countP fun t => !M.contracts t.2.chain := by
    intro h
    rw [List.countP_map]
    exact List.countP_congr fun t ht => by
      rw [Function.comp, Word.isVanishing_outcome (h t ht)]
  rw [SecondQuant.contract, bind_eq_ok_iff, hterms]
  simp only [contractTerms_monomials]
  constructor
  · rintro ⟨xs, ⟨h, rfl⟩, hx⟩
    obtain rfl := Except.ok.inj hx
    rw [sumOfOutcomes_eq hp h, List.length_map, hcount h]
    exact ⟨h, rfl⟩
  · rintro ⟨h, rfl⟩
    refine ⟨_, ⟨h, rfl⟩, ?_⟩
    rw [sumOfOutcomes_eq hp h, List.length_map, hcount h]
    rfl

/-- The contraction of an expression whose words accept the pattern. -/
theorem exists_contract {o : Options} {M : Pattern} {e : Expr}
    (h : ∀ t ∈ e.words, t.2.Accepts M) :
    ∃ x, contract o M e = .ok x ∧ x.result = finish o (e.words.contract o M).toExpr :=
  ⟨_, contract_eq_ok_iff.mpr ⟨h, rfl⟩, rfl⟩

/-- Unless deltas are eliminated, the sum of the outcomes is the result. -/
theorem finish_unreduced {o : Options} (ho : o.reduce = false) (e : Expr) : finish o e = e := by
  rw [finish, ho, if_neg Bool.false_ne_true]

end SecondQuant
