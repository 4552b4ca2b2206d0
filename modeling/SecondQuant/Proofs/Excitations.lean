import SecondQuant.Proofs.AdjointWords
import SecondQuant.Proofs.DrawnLabels
import SecondQuant.Proofs.StagedContraction

/-!
# Excitations as words

A builder for one rank draws its dummies one after the other, so their numbers follow the counts of
the context, and what it builds is a single weighted word: an amplitude and a string of operators.
The adjoint of such an operator is the operator with creations and annihilations exchanged.

* `Drawing.drawEach_replicate` — the dummies that a run of draws hands out.
* `Builder.denote_normalProduct` — the word of a normal-ordered operator.
* `Builder.adjoint_normalProduct` — its adjoint.
* `Builder.particleHole_run`, `Builder.particleHole_neg_run` — particle-hole operators of both
  signs; `Builder.excitation_run` and `Builder.excitation_neg_run` are the excitations.
* `Builder.drawnBy` — the dummies of an excitation; `Builder.numberedAfter_drawnBy` and
  `Builder.map_recount_drawnBy` compare them with those that are drawn first.
* `Builder.overlap_run_eq` — **the product of an excitation with one of opposite rank is a single
  word**.
-/

namespace SecondQuant

/-! ## Runs of draws -/

/-- A dummy that is drawn after `m` others of its space: the one at place `k` of a run. -/
def Index.after (s : Space) (m : ℕ) {n : ℕ} (k : Fin n) : Index :=
  .dummy s (m + k + 1)

theorem Index.after_succ (s : Space) (m : ℕ) {n : ℕ} (k : Fin n) :
    Index.after s m k.succ = Index.after s (m + 1) k := by
  simp only [after, Fin.val_succ]
  congr 1
  omega

theorem Index.compare_after {s : Space} {m m' n n' : ℕ} {j : Fin n} {k : Fin n'} :
    compare (Index.after s m j) (Index.after s m' k) = compare (m + j) (m' + k : ℕ) := by
  have hcmp : compare (Index.after s m j) (Index.after s m' k) = (compare s s).then
      ((compare (m + j + 1) (m' + k + 1 : ℕ)).then (compare false false)) := rfl
  have hspace : compare s s = .eq := Std.ReflCmp.compare_self
  have hkind : compare false false = .eq := rfl
  rw [hcmp, hspace, hkind, Ordering.eq_then, Ordering.then_eq, Nat.compare_eq_ite_lt,
    Nat.compare_eq_ite_lt]
  simp only [Nat.add_lt_add_iff_right]

/-- The context after `n` more indices of a space. -/
def IndexContext.advance (c : IndexContext) (s : Space) : ℕ → IndexContext
  | 0 => c
  | n + 1 => (c.record s).advance s n

theorem IndexContext.drawn_advance (c : IndexContext) (s t : Space) (n : ℕ) :
    (c.advance s n).drawn t = c.drawn t + if t = s then n else 0 := by
  induction n generalizing c with
  | zero => simp [advance]
  | succ n ih =>
      rw [advance, ih]
      by_cases h : t = s
      · subst h
        rw [drawn_record_self, if_pos rfl, if_pos rfl]
        omega
      · rw [drawn_record_of_ne c h, if_neg h, if_neg h]

/-- A run of draws in one space hands out the next numbers there. -/
theorem Drawing.drawEach_replicate (s : Space) (n : ℕ) (c : IndexContext) :
    (drawEach (List.replicate n s)).run c =
      (List.ofFn (Index.after s (c.drawn s) : Fin n → Index), c.advance s n) := by
  induction n generalizing c with
  | zero => rfl
  | succ n ih =>
      have hstep : (drawEach (List.replicate (n + 1) s)).run c =
          (Index.dummy s (c.drawn s + 1) ::
            ((drawEach (List.replicate n s)).run (c.record s)).1,
            ((drawEach (List.replicate n s)).run (c.record s)).2) := rfl
      rw [hstep, ih, IndexContext.drawn_record_self, List.ofFn_succ]
      simp only [Index.after_succ]
      rfl

/-! ## Words of operators -/

namespace Word

open OperatorAlgebra (gen)

/-- A c-number commutes with every word. -/
theorem commute_eval_gen {t : Tensor} (ht : t.isOperator = false) (w : Word) :
    Commute (gen t) (w.eval gen) := by
  refine Commute.list_prod_right _ _ fun x hx => ?_
  obtain ⟨u, _, rfl⟩ := List.mem_map.mp hx
  exact OperatorAlgebra.lawful_gen.commute t u ht

end Word

namespace Builder

open OperatorAlgebra (gen)

/-- The amplitude of a normal-ordered operator. -/
def amplitude (name : String) (s : Statistics) (cre ann : List Index) : Tensor :=
  .cNumber name cre ann (amplitudeSymmetry s (cre.length + ann.length))

/-- Creations in order, then annihilations in the reverse order. -/
def ladders (s : Statistics) (cre ann : List Index) : Word :=
  cre.map (.elementary ⟨s, .creation⟩) ++ ann.reverse.map (.elementary ⟨s, .annihilation⟩)

variable (name : String) (s : Statistics) (cre ann : List Index)

theorem isOperator_of_mem_ladders : ∀ t ∈ ladders s cre ann, t.isOperator = true :=
  List.forall_mem_append.mpr
    ⟨List.forall_mem_map.mpr fun _ _ => rfl, List.forall_mem_map.mpr fun _ _ => rfl⟩

/-- A normal-ordered operator is its amplitude and its operators, with its weight. -/
theorem denote_normalProduct :
    (normalProduct name s cre ann).denote =
      weight cre.length ann.length •
        Word.eval gen (amplitude name s cre ann :: ladders s cre ann) := by
  have hamplitude : (Expr.cNumber name cre ann
      (amplitudeSymmetry s (cre.length + ann.length))).denote =
        gen (amplitude name s cre ann) :=
    Expr.denote_ofTensor _
  have hoperators : ∀ (l : Ladder) (is : List Index),
      ((is.map fun i => Expr.tensor (.elementary l i)).map Expr.denote).prod =
        Word.eval gen (is.map (.elementary l)) := by
    intro l is
    rw [Word.eval, List.map_map, List.map_map]
    rfl
  have hcre := hoperators ⟨s, .creation⟩ cre
  have hann := hoperators ⟨s, .annihilation⟩ ann.reverse
  rw [normalProduct, Expr.denote_product, List.map_append, List.map_append, List.prod_append,
    List.prod_append, List.map_cons, List.map_singleton, List.prod_cons, List.prod_singleton,
    hamplitude, Expr.denote_const, Word.eval_cons, ladders, Word.eval_append, ← hcre, ← hann,
    smul_one_mul, smul_mul_assoc, smul_mul_assoc, mul_assoc]
  rfl

theorem map_adjoint_ladders :
    ((ladders s cre ann).map Tensor.adjoint).reverse = ladders s ann cre := by
  simp only [ladders, List.map_append, List.map_map, List.reverse_append, ← List.map_reverse,
    List.reverse_reverse]
  rfl

theorem adjoint_amplitude : (amplitude name s cre ann).adjoint = amplitude name s ann cre := by
  rw [amplitude, amplitude, Nat.add_comm]
  rfl

theorem rename_amplitude (τ : Renaming) :
    (amplitude name s cre ann).rename τ = amplitude name s (cre.map τ) (ann.map τ) := by
  simp [amplitude, Tensor.rename, Tensor.cNumber]

theorem weight_comm (m n : ℕ) : weight m n = weight n m := by
  rw [weight, weight, Nat.mul_comm]

/-- The adjoint of a normal-ordered operator creates what the operator annihilates and annihilates
what it creates. -/
theorem adjoint_normalProduct :
    (normalProduct name s cre ann).adjoint = normalProduct name s ann cre := by
  refine Expr.eq_of_denote_eq (Expr.isCanonical_adjoint _)
    (isCanonical_normalProduct name s ann cre) ?_
  have hword : Word.eval gen
      (((amplitude name s cre ann :: ladders s cre ann).map Tensor.adjoint).reverse) =
        Word.eval gen (amplitude name s ann cre :: ladders s ann cre) := by
    -- Read backwards the amplitude comes last; it commutes with the operators.
    rw [List.map_cons, List.reverse_cons, map_adjoint_ladders, adjoint_amplitude,
      Word.eval_append, Word.eval_cons, Word.eval_cons, Word.eval_nil, mul_one]
    exact (Word.commute_eval_gen rfl _).symm
  rw [Expr.denote_adjoint_eq, denote_normalProduct, map_smul, MulOpposite.unop_smul,
    Word.unop_conjugation, hword, denote_normalProduct, weight_comm]

end Builder

/-! ## The dummies of an excitation -/

namespace Builder

/-- The dummies that an excitation of a rank draws in a space. -/
def drawnBy (c : IndexContext) (n : ℕ) (s : Space) : List Index :=
  List.ofFn (Index.after s (c.drawn s) : Fin n → Index)

theorem length_drawnBy (c : IndexContext) (n : ℕ) (s : Space) : (drawnBy c n s).length = n :=
  List.length_ofFn

theorem ascending_drawnBy (c : IndexContext) (n : ℕ) (s : Space) :
    (drawnBy c n s).Pairwise fun i j => compare i j = .lt := by
  rw [drawnBy, List.pairwise_ofFn]
  intro j k hjk
  exact Index.compare_after.trans (Nat.compare_eq_lt.mpr (by omega))

theorem drawnAfter_drawnBy (c : IndexContext) (n : ℕ) (s : Space) :
    ∀ i ∈ drawnBy c n s, i.DrawnAfter c := by
  intro i hi
  obtain ⟨k, rfl⟩ := List.mem_ofFn.mp hi
  refine ⟨rfl, ?_⟩
  show c.drawn s < c.drawn s + k.val + 1
  omega

/-- The dummies that an excitation draws first are numbered. -/
theorem numberedAfter_drawnBy (n : ℕ) (seen : List Index) (s : Space) :
    NumberedAfter seen (drawnBy .empty n s) := by
  refine Complete.numberedAfter ?_ ((ascending_drawnBy _ n s).imp fun h => by simp [h])
  intro i hi _
  obtain ⟨k, rfl⟩ := List.mem_ofFn.mp hi
  rw [IndexContext.drawn_empty]
  refine ⟨?_, fun j h₁ hj => .inr (List.mem_ofFn.mpr ⟨⟨j - 1, ?_⟩, ?_⟩)⟩
  · show 1 ≤ 0 + k.val + 1
    omega
  · have hj : j < 0 + k.val + 1 := hj
    omega
  · rw [IndexContext.drawn_empty]
    show Index.dummy s (0 + (j - 1) + 1) = .dummy s j
    congr 1
    omega

/-- Counting from a context turns the first dummies into those that are drawn from it. -/
theorem map_recount_drawnBy (c : IndexContext) (n : ℕ) (s : Space) :
    (drawnBy .empty n s).map (IndexContext.empty.recount c) = drawnBy c n s := by
  rw [drawnBy, List.map_ofFn, drawnBy, IndexContext.drawn_empty]
  congr 1
  funext k
  show Index.dummy s (0 + k.val + 1 + c.drawn s - IndexContext.empty.drawn s) = .dummy s _
  rw [IndexContext.drawn_empty]
  congr 1
  omega

/-- On the dummies of an excitation, what is occupied comes before what is virtual. -/
theorem compare_drawnBy (c : IndexContext) {n : ℕ} (hn : n ≠ 0) :
    compare (drawnBy c n .occupied) (drawnBy c n .virtual) = .lt := by
  obtain ⟨m, rfl⟩ := Nat.exists_eq_succ_of_ne_zero hn
  have hfirst : compare (Index.after .occupied (c.drawn .occupied) (0 : Fin (m + 1)))
      (Index.after .virtual (c.drawn .virtual) (0 : Fin (m + 1))) = .lt := rfl
  rw [drawnBy, drawnBy, List.ofFn_succ, List.ofFn_succ, List.compare_cons_cons, hfirst]
  rfl

end Builder

/-! ## Excitations -/

namespace Builder

/-- What a normal-ordered operator on two runs of draws is built of. -/
theorem normalOrdered_run (name : String) (s : Statistics) (s₁ s₂ : Space) (m n : ℕ)
    (c : IndexContext) :
    (normalOrdered name s (List.replicate m s₁) (List.replicate n s₂)).run c =
      (normalProduct name s (List.ofFn (Index.after s₁ (c.drawn s₁) : Fin m → Index))
        (List.ofFn (Index.after s₂ ((c.advance s₁ m).drawn s₂) : Fin n → Index)),
        (c.advance s₁ m).advance s₂ n) := by
  simp only [normalOrdered, StateT.run_bind, Drawing.drawEach_replicate]
  rfl

/-- The context after an excitation of a rank. -/
def afterExcitation (c : IndexContext) (n : ℕ) : IndexContext :=
  (c.advance .virtual n).advance .occupied n

theorem drawn_afterExcitation (c : IndexContext) (n : ℕ) :
    (afterExcitation c n).drawn .virtual = c.drawn .virtual + n ∧
      (afterExcitation c n).drawn .occupied = c.drawn .occupied + n := by
  simp [afterExcitation, IndexContext.drawn_advance]

theorem particles_and_holes_run (c : IndexContext) (n : ℕ) :
    (normalOrdered "A" .fermion (List.replicate n .virtual) (List.replicate n .occupied)).run c =
      (normalProduct "A" .fermion (drawnBy c n .virtual) (drawnBy c n .occupied),
        afterExcitation c n) := by
  rw [normalOrdered_run, IndexContext.drawn_advance]
  rfl

/-- A positive rank is built as a normal-ordered operator. -/
theorem particleHole_run {n : ℕ} (hn : n ≠ 0) (name : String) (c : IndexContext) :
    (particleHole name n).run c = (normalOrdered name .fermion (List.replicate n .virtual)
      (List.replicate n .occupied)).run c := by
  have hpos : 0 < (n : ℤ) := by omega
  rw [particleHole, if_neg hpos.ne', Int.natAbs_natCast]
  simp only [if_pos hpos]
  rfl

/-- A negative rank is the adjoint of the positive one. -/
theorem particleHole_neg_run {n : ℕ} (hn : n ≠ 0) (name : String) (c : IndexContext) :
    (particleHole name (-n)).run c = Prod.map Expr.adjoint id ((particleHole name n).run c) := by
  have hneg : ¬(-n : ℤ) = 0 := by omega
  have hsign : ¬0 < (-n : ℤ) := by omega
  rw [particleHole_run hn, particleHole, if_neg hneg, Int.natAbs_neg, Int.natAbs_natCast]
  simp only [if_neg hsign]
  rfl

/-- An excitation creates particles and makes holes. -/
theorem excitation_run {n : ℕ} (hn : n ≠ 0) (c : IndexContext) :
    (excitation n).run c =
      (normalProduct "A" .fermion (drawnBy c n .virtual) (drawnBy c n .occupied),
        afterExcitation c n) := by
  rw [excitation, particleHole_run hn, particles_and_holes_run]

/-- An excitation of negative rank fills holes and annihilates particles. -/
theorem excitation_neg_run {n : ℕ} (hn : n ≠ 0) (c : IndexContext) :
    (excitation (-n)).run c =
      (normalProduct "A" .fermion (drawnBy c n .occupied) (drawnBy c n .virtual),
        afterExcitation c n) := by
  rw [excitation, particleHole_neg_run hn, particleHole_run hn, particles_and_holes_run]
  exact Prod.ext (adjoint_normalProduct _ _ _ _) rfl

/-- The product of an excitation of rank `-n` and one of rank `n`, built one after the other. -/
def overlap (n : ℕ) : Drawing Expr := do
  let bra ← excitation (-n)
  let ket ← excitation n
  return Expr.product [bra, ket]

theorem overlap_run {n : ℕ} (hn : n ≠ 0) (c : IndexContext) :
    ((overlap n).run c).1 = Expr.product
      [normalProduct "A" .fermion (drawnBy c n .occupied) (drawnBy c n .virtual),
        normalProduct "A" .fermion (drawnBy (afterExcitation c n) n .virtual)
          (drawnBy (afterExcitation c n) n .occupied)] := by
  show Expr.product [((excitation (-n)).run c).1,
    ((excitation n).run ((excitation (-n)).run c).2).1] = _
  rw [excitation_neg_run hn, excitation_run hn]

/-! ## The word of an overlap -/

/-- The amplitudes of an overlap: those of the excitation of rank `-n` and of the one of rank
`n`. -/
def overlapAmplitudes (c : IndexContext) (n : ℕ) : Word :=
  [amplitude "A" .fermion (drawnBy c n .occupied) (drawnBy c n .virtual),
    amplitude "A" .fermion (drawnBy (afterExcitation c n) n .virtual)
      (drawnBy (afterExcitation c n) n .occupied)]

/-- The operators of an overlap: those of the excitation of rank `-n` before those of the one of
rank `n`. -/
def overlapLadders (c : IndexContext) (n : ℕ) : Word :=
  ladders .fermion (drawnBy c n .occupied) (drawnBy c n .virtual) ++
    ladders .fermion (drawnBy (afterExcitation c n) n .virtual)
      (drawnBy (afterExcitation c n) n .occupied)

/-- The word of an overlap. -/
def overlapWord (c : IndexContext) (n : ℕ) : Word :=
  Word.normal (overlapAmplitudes c n ++ overlapLadders c n)

theorem isCanonical_amplitude (name : String) (s : Statistics) {cre ann : List Index}
    (hcre : cre.Pairwise fun i j => compare i j = .lt)
    (hann : ann.Pairwise fun i j => compare i j = .lt) :
    (amplitude name s cre ann).IsCanonical :=
  Tensor.isCanonical_of_ascending hcre hann

theorem isCanonical_of_mem_ladders (s : Statistics) (cre ann : List Index) :
    ∀ t ∈ ladders s cre ann, t.IsCanonical :=
  List.forall_mem_append.mpr
    ⟨List.forall_mem_map.mpr fun _ _ => Tensor.isCanonical_of_plain rfl,
      List.forall_mem_map.mpr fun _ _ => Tensor.isCanonical_of_plain rfl⟩

theorem isCanonical_of_mem_overlapAmplitudes (c : IndexContext) (n : ℕ) :
    ∀ t ∈ overlapAmplitudes c n, t.IsCanonical := by
  refine List.forall_mem_cons.mpr ⟨?_, List.forall_mem_singleton.mpr ?_⟩
  · exact isCanonical_amplitude _ _ (ascending_drawnBy ..) (ascending_drawnBy ..)
  · exact isCanonical_amplitude _ _ (ascending_drawnBy ..) (ascending_drawnBy ..)

theorem isCanonical_overlapWord (c : IndexContext) (n : ℕ) : (overlapWord c n).IsCanonical := by
  refine Word.built_normal (List.forall_mem_append.mpr
    ⟨isCanonical_of_mem_overlapAmplitudes c n, List.forall_mem_append.mpr ⟨?_, ?_⟩⟩)
  · exact isCanonical_of_mem_ladders _ _ _
  · exact isCanonical_of_mem_ladders _ _ _

theorem weight_ne_zero (m n : ℕ) : weight m n ≠ 0 := by
  have hpos : ∀ k, factorial k ≠ 0 := by
    intro k
    induction k with
    | zero => exact one_ne_zero
    | succ k ih => exact Nat.mul_ne_zero k.succ_ne_zero ih
  have hprod : (factorial m * factorial n : ℕ) ≠ 0 := Nat.mul_ne_zero (hpos m) (hpos n)
  rw [weight]
  exact div_ne_zero one_ne_zero (Nat.cast_ne_zero.mpr hprod)

/-- The weight of an overlap: one over the fourth power of the factorial of its rank. -/
def overlapWeight (n : ℕ) : ℚ :=
  1 / (factorial n : ℚ) ^ 4

theorem weight_mul_weight (n : ℕ) : weight n n * weight n n = overlapWeight n := by
  rw [weight, overlapWeight]
  push_cast
  ring

theorem overlapWeight_ne_zero (n : ℕ) : overlapWeight n ≠ 0 := by
  rw [← weight_mul_weight]
  exact mul_ne_zero (weight_ne_zero n n) (weight_ne_zero n n)

/-- **An overlap is a single word**, with its weight. -/
theorem overlap_run_eq {n : ℕ} (hn : n ≠ 0) (c : IndexContext) :
    ((overlap n).run c).1 =
      Expr.scaled (overlapWeight n) (overlapWord c n).monomial := by
  rw [overlap_run hn]
  refine Expr.eq_of_denote_eq (Expr.isCanonical_product ?_)
    (Expr.isCanonical_scaled (overlapWeight_ne_zero n) (isCanonical_overlapWord c n)) ?_
  · refine List.forall_mem_cons.mpr ⟨?_, List.forall_mem_singleton.mpr ?_⟩
    · exact isCanonical_normalProduct _ _ _ _
    · exact isCanonical_normalProduct _ _ _ _
  · -- The second amplitude moves in front of the first operators.
    have hmove : ∀ (s t : Tensor) (u v : Word), t.isOperator = false →
        Word.eval OperatorAlgebra.gen (s :: u) * Word.eval OperatorAlgebra.gen (t :: v) =
          Word.eval OperatorAlgebra.gen ([s, t] ++ (u ++ v)) := by
      intro s t u v ht
      simp only [Word.eval_cons, Word.eval_append, Word.eval_nil, mul_one, mul_assoc]
      rw [(Word.commute_eval_gen ht u).left_comm]
    have hword : (overlapWord c n).monomial.denote =
        Word.eval OperatorAlgebra.gen (overlapAmplitudes c n ++ overlapLadders c n) := by
      rw [Expr.denote, Word.eval_monomial, overlapWord,
        Word.eval_normal OperatorAlgebra.lawful_gen.commute]
    rw [Expr.denote_scaled, hword, overlapAmplitudes, overlapLadders, ← hmove _ _ _ _ rfl,
      Expr.denote_product, List.map_cons, List.map_singleton, List.prod_cons, List.prod_singleton,
      denote_normalProduct, denote_normalProduct]
    simp only [length_drawnBy]
    rw [smul_mul_smul_comm, weight_mul_weight]

theorem words_overlap {n : ℕ} (hn : n ≠ 0) (c : IndexContext) :
    ((overlap n).run c).1.words = [(overlapWeight n, overlapWord c n)] := by
  rw [overlap_run_eq hn]
  exact Expr.words_toExpr <|
    WordSum.built_single (overlapWeight_ne_zero n) (isCanonical_overlapWord c n)

theorem isOperator_of_mem_overlapAmplitudes (c : IndexContext) (n : ℕ) :
    ∀ t ∈ overlapAmplitudes c n, t.isOperator = false :=
  List.forall_mem_cons.mpr ⟨rfl, List.forall_mem_singleton.mpr rfl⟩

theorem isOperator_of_mem_overlapLadders (c : IndexContext) (n : ℕ) :
    ∀ t ∈ overlapLadders c n, t.isOperator = true :=
  List.forall_mem_append.mpr
    ⟨isOperator_of_mem_ladders _ _ _, isOperator_of_mem_ladders _ _ _⟩

theorem operators_overlapWord (c : IndexContext) (n : ℕ) :
    (overlapWord c n).operators = overlapLadders c n := by
  rw [overlapWord, Word.operators_normal]
  exact Word.operators_append (isOperator_of_mem_overlapAmplitudes c n)
    (isOperator_of_mem_overlapLadders c n)

theorem cNumbers_overlapWord (c : IndexContext) (n : ℕ) :
    (overlapWord c n).cNumbers.Perm (overlapAmplitudes c n) := by
  have hletters := Word.cNumbers_append (isOperator_of_mem_overlapAmplitudes c n)
    (isOperator_of_mem_overlapLadders c n)
  rw [← hletters]
  exact (Word.normal_perm _).filter _

/-- The operators of an overlap, in order. -/
theorem operators_overlap {n : ℕ} (hn : n ≠ 0) (c : IndexContext) :
    ((overlap n).run c).1.operators = overlapLadders c n := by
  rw [overlap_run_eq hn, Expr.operators, Word.leaves_scaled (overlapWeight_ne_zero n),
    ← operators_overlapWord, Word.operators]

end Builder

end SecondQuant
