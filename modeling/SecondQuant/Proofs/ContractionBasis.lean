import SecondQuant.Proofs.Failures
import SecondQuant.Proofs.Replacement
import SecondQuant.Proofs.WordContraction

/-!
# Contraction in two bases

The basis only decides the value of a pair: an overlap between its indices, or 1 and a delta when
the states are orthonormal.  Which terms are evaluated, which vanish and which fail is the same in
both bases.  When the expression holds no overlap of its own, putting the orthonormal values in
place of the overlaps turns one result into the other; terms that differed by their overlaps only
are then collected, and may cancel.

* `Tensor.inOrthonormalBasis` — what a tensor becomes when overlaps take their orthonormal values.
* `Word.eval_contractedLetters` — **one word**: the values of its pairs are replaced.
* `WordSum.toExpr_contract_orthonormal` — all words, with the terms collected anew.
* `contract_orthonormal` — the two contractions of an expression.
-/

namespace SecondQuant

open OperatorAlgebra (gen lawful_gen)

/-! ## Overlaps and their values -/

/-- The upper and the lower index of an overlap: a c-number of that name without symmetry, with one
index in each list. -/
def Tensor.overlap? (t : Tensor) : Option (Index × Index) :=
  match t.upper, t.lower with
  | [p], [q] =>
      if t.name = overlapName ∧ t.ladder = none ∧ t.symmetry = .plain then some (p, q) else none
  | _, _ => none

/-- The tensor in an orthonormal basis: an overlap is 1 or a delta with the same indices, and any
other tensor stays. -/
def Tensor.inOrthonormalBasis (t : Tensor) : Expr :=
  match t.overlap? with
  | some (p, q) => if p = q then Expr.one else .tensor (.cNumber deltaName [p] [q] .plain)
  | none => .tensor t

/-- The evaluation with the overlaps of its result replaced, in canonical form. -/
def Evaluation.inOrthonormalBasis (x : Evaluation) : Evaluation :=
  { x with result := (x.result.replace Tensor.inOrthonormalBasis).canonical }

namespace Tensor

theorem inOrthonormalBasis_of_name_ne {t : Tensor} (h : t.name ≠ overlapName) :
    t.inOrthonormalBasis = .tensor t := by
  have hnone : t.overlap? = none := by
    unfold overlap?
    split
    · exact if_neg fun hname => h hname.1
    · rfl
  rw [inOrthonormalBasis, hnone]

/-- The overlap of a pair is replaced by the value of the pair in an orthonormal basis. -/
theorem inOrthonormalBasis_between (i j : Index) :
    (between overlapName i j).inOrthonormalBasis = contractionValue true i j := by
  have hcNumber (p q : Index) : (cNumber overlapName [p] [q] .plain).overlap? = some (p, q) := by
    simp [overlap?, cNumber]
  unfold between contractionValue
  rw [if_pos rfl]
  by_cases hij : (compare i j).isLE = true
  · rw [if_pos hij, inOrthonormalBasis, hcNumber, between, if_pos hij]
  · rw [if_neg hij, inOrthonormalBasis, hcNumber, between, if_neg hij]
    simp only [eq_comm]

/-- A tensor is replaced by 1, or by a tensor that is a c-number when it is one. -/
theorem inOrthonormalBasis_cases (t : Tensor) :
    t.inOrthonormalBasis = Expr.one ∨
      ∃ u, t.inOrthonormalBasis = .tensor u ∧ (t.isOperator = false → u.isOperator = false) := by
  unfold inOrthonormalBasis
  split
  · split
    · exact .inl rfl
    · exact .inr ⟨_, rfl, fun _ => rfl⟩
  · exact .inr ⟨t, rfl, id⟩

/-- The meaning of a tensor in an orthonormal basis. -/
noncomputable def orthonormalValue (t : Tensor) : OperatorAlgebra :=
  t.inOrthonormalBasis.denote

theorem orthonormalValue_of_name_ne {t : Tensor} (h : t.name ≠ overlapName) :
    t.orthonormalValue = gen t := by
  rw [orthonormalValue, inOrthonormalBasis_of_name_ne h]
  rfl

theorem cNumbersCommute_orthonormalValue : CNumbersCommute orthonormalValue := by
  intro s t hs
  unfold orthonormalValue
  rcases s.inOrthonormalBasis_cases with hone | ⟨u, hu, hcNumber⟩
  · rw [hone, Expr.denote, Expr.eval_one]
    exact Commute.one_left _
  · rcases t.inOrthonormalBasis_cases with hone | ⟨v, hv, -⟩
    · rw [hone, Expr.denote, Expr.denote, Expr.eval_one]
      exact Commute.one_right _
    · rw [hu, hv]
      exact lawful_gen.commute u v (hcNumber hs)

end Tensor

/-! ## One word -/

theorem Link.orthonormalValue_overlap (l : Link) :
    (Tensor.between overlapName l.left.index l.right.index).orthonormalValue =
      (l.value true).denote := by
  rw [Tensor.orthonormalValue, Tensor.inOrthonormalBasis_between, value]

/-- The overlaps of the pairs of a pattern are worth, after the replacement, what the pairs are
worth in an orthonormal basis. -/
theorem eval_contractionTensors (chain : List ChainOperator) (ps : List Pair) :
    Word.eval Tensor.orthonormalValue (contractionTensors false chain ps) =
      Word.eval gen (contractionTensors true chain ps) := by
  have hoverlaps : contractionTensors false chain ps = (links chain ps).map fun l =>
      Tensor.between overlapName l.left.index l.right.index :=
    congrFun (List.filterMap_eq_map (f := fun l : Link =>
      Tensor.between overlapName l.left.index l.right.index)) _
  rw [hoverlaps, contractionTensors, ← prod_denote_values, Word.eval, List.map_map, List.map_map]
  exact congrArg List.prod (List.map_congr_left fun l _ => l.orthonormalValue_overlap)

theorem Word.eval_orthonormalValue {w : Word} (h : ∀ t ∈ w, t.name ≠ overlapName) :
    w.eval Tensor.orthonormalValue = w.eval gen :=
  congrArg List.prod (List.map_congr_left fun t ht => Tensor.orthonormalValue_of_name_ne (h t ht))

/-- **One word.**  With the overlaps of its pairs replaced, a contracted word without overlaps of
its own is worth what it is worth in an orthonormal basis. -/
theorem Word.eval_contractedLetters {w : Word} (h : ∀ t ∈ w, t.name ≠ overlapName) (M : Pattern)
    (reduce : Bool) :
    Word.eval Tensor.orthonormalValue (w.contractedLetters ⟨false, reduce⟩ M) =
      Word.eval gen (w.contractedLetters ⟨true, reduce⟩ M) := by
  have hcNumbers : ∀ t ∈ w.cNumbers, t.name ≠ overlapName := fun t ht =>
    h t (List.mem_filter.mp ht).1
  have hremaining : ∀ t ∈ (remaining w.chain M).map ChainOperator.source,
      t.name ≠ overlapName := by
    refine List.forall_mem_map.mpr fun o ho => ?_
    obtain ⟨t, ht, hread⟩ := List.mem_filterMap.mp (mem_of_mem_remaining ho)
    rw [ChainOperator.source_of_read? hread]
    exact h t (List.mem_filter.mp ht).1
  simp only [contractedLetters, eval_append]
  rw [eval_orthonormalValue hcNumbers, eval_orthonormalValue hremaining,
    eval_contractionTensors]

theorem Word.eval_contract_overlaps {w : Word} (h : ∀ t ∈ w, t.name ≠ overlapName) (M : Pattern)
    (reduce : Bool) :
    WordSum.eval Tensor.orthonormalValue (w.contract ⟨false, reduce⟩ M) =
      WordSum.eval gen (w.contract ⟨true, reduce⟩ M) := by
  unfold contract
  split
  · rw [WordSum.eval_cons, WordSum.eval_nil, WordSum.eval_cons, WordSum.eval_nil, contracted,
      contracted, eval_normal Tensor.cNumbersCommute_orthonormalValue,
      eval_normal lawful_gen.commute, eval_contractedLetters h]
  · rfl

/-! ## Sums of words -/

/-- The contraction in an orthonormal basis is the other one with the overlaps replaced, its terms
collected anew. -/
theorem WordSum.toExpr_contract_orthonormal {p : WordSum} (hp : p.IsCanonical)
    (h : ∀ s ∈ p, ∀ t ∈ s.2, t.name ≠ overlapName) (M : Pattern) (reduce : Bool) :
    (p.contract ⟨true, reduce⟩ M).toExpr =
      ((p.contract ⟨false, reduce⟩ M).toExpr.replace Tensor.inOrthonormalBasis).canonical := by
  refine Expr.eq_of_denote_eq (Expr.isCanonical_toExpr (isCanonical_contract hp))
    (Expr.isCanonical_canonical _) ?_
  calc (p.contract ⟨true, reduce⟩ M).toExpr.denote
      = Combination.eval (fun w => WordSum.eval gen (w.contract ⟨true, reduce⟩ M)) p := by
        rw [Expr.denote, eval_toExpr, eval_contract]
    _ = Combination.eval (fun w =>
          WordSum.eval Tensor.orthonormalValue (w.contract ⟨false, reduce⟩ M)) p :=
        Combination.eval_congr fun s hs => (Word.eval_contract_overlaps (h s hs) M reduce).symm
    _ = (p.contract ⟨false, reduce⟩ M).toExpr.eval Tensor.orthonormalValue := by
        rw [eval_toExpr, eval_contract]
    _ = _ := by
        rw [Expr.denote_canonical, Expr.denote, Expr.eval_replace]
        rfl

/-- The canonical form of an expression names no tensor that the expression does not name. -/
theorem Expr.name_ne_of_mem_words {e : Expr} {name : String}
    (h : ∀ t ∈ e.leaves, t.name ≠ name) : ∀ s ∈ e.words, ∀ t ∈ s.2, t.name ≠ name := by
  have hleaf : ∀ t ∈ e.leaves, ∀ s ∈ t.canonicalWords, ∀ x ∈ s.2, x.name ≠ name := by
    intro t ht s hs x hx
    rcases Tensor.eq_or_eq_sorted_of_mem_canonicalWords hs x hx with rfl | rfl
    · exact h _ ht
    · exact h t ht
  exact fun s hs => ((Expr.built_expand e hleaf).2 s hs).2

/-! ## Expressions -/

/-- **Two bases.**  When no tensor of an expression bears the name of the overlap, its contraction
in an orthonormal basis is the one in another basis with the overlaps of the result replaced: it
fails with the same error, or else it starts from the same canonical form, evaluates as many terms
and lets as many vanish, and its result is the canonical form of the other one with 1 in place of
each overlap of an index with itself and a delta in place of every other overlap. -/
theorem contract_orthonormal (M : Pattern) (e : Expr) (he : ∀ t ∈ e.leaves, t.name ≠ overlapName) :
    contract { orthonormal := true, reduce := false } M e =
      (contract { orthonormal := false, reduce := false } M e).map
        Evaluation.inOrthonormalBasis := by
  cases hother : contract { orthonormal := false, reduce := false } M e with
  | error x => exact contract_eq_error_iff.mpr (contract_eq_error_iff.mp hother)
  | ok y =>
      obtain ⟨haccepts, rfl⟩ := contract_eq_ok_iff.mp hother
      refine contract_eq_ok_iff.mpr ⟨haccepts, ?_⟩
      have hresult := WordSum.toExpr_contract_orthonormal e.isCanonical_canonicalWords_expand
        (Expr.name_ne_of_mem_words he) M false
      simp only [finish_unreduced, Evaluation.inOrthonormalBasis, hresult]

/-- The pair of a fermion at one index less that of a photon, and a pair at two indices. -/
def threePairs : Expr :=
  .sum [(1, .prod [.annihilation .fermion (.dummy .general 1),
      .creation .fermion (.dummy .general 1)]),
    (-1, .prod [.annihilation .boson (.dummy .photon 1), .creation .boson (.dummy .photon 1)]),
    (1, .prod [.annihilation .fermion (.dummy .general 2), .creation .fermion (.dummy .virtual 1)])]

/-- Off the orthonormal basis the three overlaps are different.  Two of them are worth 1 in an
orthonormal basis and cancel, and a delta is left. -/
theorem contract_orthonormal_threePairs :
    ∃ M y, Pattern.ofPairs [⟨0, 1⟩] = .ok M ∧
      contract { orthonormal := false, reduce := false } M threePairs = .ok y ∧
      y.result.terms.length = 3 ∧
      contract { orthonormal := true, reduce := false } M threePairs =
        .ok y.inOrthonormalBasis ∧
      y.inOrthonormalBasis.result =
        .tensor (.cNumber "δ" [.dummy .virtual 1] [.dummy .general 2] .plain) := by
  let M : Pattern := ⟨[⟨0, 1⟩], by decide⟩
  have hnames : ∀ t ∈ threePairs.leaves, t.name ≠ overlapName := by decide +kernel
  have hbasis := contract_orthonormal M threePairs hnames
  have hother : contract { orthonormal := false, reduce := false } M threePairs = .ok
      ⟨threePairs.canonical,
        .sum [(1, .tensor (.between overlapName (.dummy .virtual 1) (.dummy .general 2))),
          (1, .tensor (.between overlapName (.dummy .general 1) (.dummy .general 1))),
          (-1, .tensor (.between overlapName (.dummy .photon 1) (.dummy .photon 1)))],
        3, 0, false⟩ := by decide +kernel
  rw [hother] at hbasis
  exact ⟨M, _, Pattern.ofPairs_pairs M, hother, by decide +kernel, hbasis, by decide +kernel⟩

end SecondQuant
