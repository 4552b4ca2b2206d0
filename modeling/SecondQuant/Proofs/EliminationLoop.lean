import SecondQuant.Proofs.DeltaElimination
import SecondQuant.Proofs.IndexSupport

/-!
# The elimination of deltas ends and is complete

The elimination of deltas goes on as long as some factor of a term can be eliminated.  Each step
takes one tensor away, so on any tree it comes to an end; on a canonical term it takes one delta
away and makes no new one, however the rest is renamed, reordered or made to vanish.  What is left
cannot be eliminated, so a second pass finds nothing to do.

* `Expr.EliminatesTo` — the loop, its number of steps and the term in which it ends.
* `Expr.length_le_of_mem_expand` — no word of a tree is longer than the list of its tensors.
* `Expr.length_leaves_result_lt`, `Expr.exists_eliminatesTo` — a step that does not end the loop
  leaves fewer tensors, so the loop ends.
* `Expr.EliminatesTo.exists_tree` — the deltas that a loop takes and leaves.
* `Index.DeltaStays`, `Elimination.ofIndices?_eq_none_iff` — the deltas that cannot be eliminated.
* `reduceDeltas_exhaustive` — **the elimination ends and leaves nothing to eliminate**.
-/

namespace SecondQuant

/-! ## The loop -/

namespace Expr

/-- The elimination of deltas in a term, one by one: how many steps it takes, and the term in which
no factor can be eliminated any more. -/
inductive EliminatesTo : Expr → ℕ → Expr → Prop
  | stop {m : Expr} (h : deltaStep? m.factors = none) : EliminatesTo m 0 m
  | step {m r : Expr} {s : DeltaStep} {n : ℕ} (h : deltaStep? m.factors = some s)
      (rest : EliminatesTo s.result n r) : EliminatesTo m (n + 1) r

theorem EliminatesTo.deltaStep?_eq_none {m r : Expr} {n : ℕ} (h : m.EliminatesTo n r) :
    deltaStep? r.factors = none := by
  induction h with
  | stop h => exact h
  | step _ _ ih => exact ih

theorem deltaStep?_eq_none_iff {es : List Expr} :
    deltaStep? es = none ↔ ∀ e ∈ es, e.elimination? = none := by
  induction es with
  | nil => simp [deltaStep?]
  | cons e es ih =>
      rw [deltaStep?, List.forall_mem_cons, ← ih]
      cases e.elimination? with
      | none => simp
      | some x => simp

/-- A term without deltas to eliminate is left as it is. -/
theorem eliminate_eq_self {m : Expr} (h : deltaStep? m.factors = none) (fuel : ℕ) :
    eliminate fuel m = m := by
  cases fuel with
  | zero => rfl
  | succ fuel => rw [eliminate, h]

end Expr

/-! ## The length of words -/

theorem Word.length_mul (u v : Word) : (u.mul v).length = u.length + v.length := by
  have hinsert : (u.mul v).Perm (u ++ v) := by
    induction u with
    | nil => exact List.Perm.refl v
    | cons t u ih => exact (insertBy_perm _ t _).trans (ih.cons t)
  rw [hinsert.length_eq, List.length_append]

theorem WordSum.length_le_of_mem_mul {p q : WordSum} {m n : ℕ} (hp : ∀ s ∈ p, s.2.length ≤ m)
    (hq : ∀ s ∈ q, s.2.length ≤ n) : ∀ s ∈ p.mul q, s.2.length ≤ m + n := by
  apply Combination.mem_collect (P := fun w : Word => w.length ≤ m + n)
  intro t ht
  obtain ⟨s, hs, ht⟩ := List.mem_flatMap.mp ht
  obtain ⟨r, hr, rfl⟩ := List.mem_map.mp ht
  rw [Word.length_mul]
  exact Nat.add_le_add (hp s hs) (hq r hr)

namespace Expr

variable {leaf : Tensor → WordSum}

mutual

/-- If tensors are replaced by words of at most one letter, no word of a tree is longer than the
list of its tensors. -/
theorem length_le_of_mem_expand (hleaf : ∀ t, ∀ s ∈ leaf t, s.2.length ≤ 1) :
    ∀ e : Expr, ∀ s ∈ e.expand leaf, s.2.length ≤ e.leaves.length
  | const r => by
      intro s hs
      rw [expand, WordSum.ofRat, Combination.single] at hs
      split at hs
      · cases hs
      · rw [List.mem_singleton.mp hs]
        exact Nat.zero_le _
  | tensor t => by
      apply Combination.mem_collect (P := fun w : Word => w.length ≤ 1)
      intro s hs
      obtain ⟨x, hx, rfl⟩ := List.mem_map.mp hs
      rw [Word.normal, length_sortBy]
      exact hleaf t x hx
  | sum ts => Combination.mem_collect (P := fun w : Word => w.length ≤ (termLeaves ts).length)
      (length_le_of_mem_expandTerms hleaf ts)
  | prod es => length_le_of_mem_expandFactors hleaf es

theorem length_le_of_mem_expandTerms (hleaf : ∀ t, ∀ s ∈ leaf t, s.2.length ≤ 1) :
    ∀ ts : List Term, ∀ s ∈ expandTerms leaf ts, s.2.length ≤ (termLeaves ts).length
  | [] => List.forall_mem_nil _
  | (c, e) :: ts => by
      have he := length_le_of_mem_expand hleaf e
      have hts := length_le_of_mem_expandTerms hleaf ts
      intro s hs
      rw [termLeaves, List.length_append]
      rcases List.mem_append.mp hs with hs | hs
      · obtain ⟨x, hx, rfl⟩ := List.mem_map.mp hs
        exact Nat.le_add_right_of_le (he x hx)
      · exact Nat.le_add_left_of_le (hts s hs)

theorem length_le_of_mem_expandFactors (hleaf : ∀ t, ∀ s ∈ leaf t, s.2.length ≤ 1) :
    ∀ es : List Expr, ∀ s ∈ expandFactors leaf es, s.2.length ≤ (factorLeaves es).length
  | [] => List.forall_mem_singleton.mpr (Nat.le_refl 0)
  | e :: es => by
      rw [expandFactors_cons, factorLeaves, List.length_append]
      exact WordSum.length_le_of_mem_mul (length_le_of_mem_expand hleaf e)
        (length_le_of_mem_expandFactors hleaf es)

end

/-! ## The loop ends -/

/-- A renamed tree that still has a delta to eliminate is a single term, and has at most as many
tensors as the tree. -/
theorem length_leaves_rename_le {e : Expr} {σ : Renaming}
    (h : deltaStep? (e.rename σ).factors ≠ none) :
    (e.rename σ).leaves.length ≤ e.leaves.length := by
  have hletters : ∀ t : Tensor, ∀ s ∈ (t.rename σ).canonicalWords, s.2.length ≤ 1 := by
    intro t s hs
    rw [Tensor.canonicalWords] at hs
    split at hs
    · cases hs
    · rw [List.mem_singleton.mp hs]
      exact Nat.le_refl 1
  have hlength := length_le_of_mem_expand hletters e
  have hcan : WordSum.IsCanonical (e.expand fun t => (t.rename σ).canonicalWords) :=
    isCanonical_expand fun _ _ _ hs => Tensor.isCanonical_of_mem_canonicalWords hs
  rw [rename] at h ⊢
  generalize (e.expand fun t => (t.rename σ).canonicalWords) = p at h hlength hcan ⊢
  -- A sum of two terms is a single factor, and no tensor, so the loop ends there.
  rcases p with _ | ⟨⟨c, w⟩, _ | ⟨_, _⟩⟩
  · exact absurd rfl h
  · have hc : c ≠ 0 := (Combination.reduced_cons.mp hcan.1).1.1
    show (scaled c w.monomial).leaves.length ≤ e.leaves.length
    rw [Word.leaves_scaled hc]
    exact hlength (c, w) List.mem_cons_self
  · exact absurd rfl h

theorem factorLeaves_append (es fs : List Expr) :
    factorLeaves (es ++ fs) = factorLeaves es ++ factorLeaves fs := by
  induction es with
  | nil => rfl
  | cons e es ih => rw [List.cons_append, factorLeaves, ih, factorLeaves, List.append_assoc]

/-- The tensors of a tree are those of its factors. -/
theorem factorLeaves_factors (m : Expr) : factorLeaves m.factors = m.leaves := by
  have hsingle : ∀ e : Expr, factorLeaves [e] = e.leaves := fun e => List.append_nil e.leaves
  cases m with
  | const r =>
      show factorLeaves (if (const r).isOne then [] else [const r]) = []
      split
      · rfl
      · rfl
  | tensor t => exact hsingle _
  | sum ts => exact hsingle _
  | prod es => rfl

/-- A step takes one tensor away, and unless the loop ends with it, the rest of the term has no more
tensors than before. -/
theorem length_leaves_result_lt {m : Expr} {s : DeltaStep} (hs : deltaStep? m.factors = some s)
    (hmore : deltaStep? s.result.factors ≠ none) : s.result.leaves.length < m.leaves.length := by
  obtain ⟨pre, post, hfactors, hothers, hfactor⟩ := deltaStep?_eq_some hs
  obtain ⟨t, _, _, ht, _, _⟩ := elimination?_eq_some hfactor
  have hproduct : s.result = (prod s.others).rename s.elimination.toRenaming := by
    refine rename_congr ?_ _
    rw [denote_product, denote, eval_prod]
    rfl
  rw [hproduct] at hmore ⊢
  refine Nat.lt_of_le_of_lt (length_leaves_rename_le hmore) ?_
  show (factorLeaves s.others).length < m.leaves.length
  rw [← factorLeaves_factors m, hfactors, hothers, ht]
  simp [factorLeaves_append, factorLeaves, leaves]

/-- As many steps as there are tensors are enough for the loop to end. -/
theorem exists_eliminatesTo {fuel : ℕ} {m : Expr} (h : m.leaves.length ≤ fuel) :
    ∃ n, m.EliminatesTo n (eliminate fuel m) := by
  induction fuel generalizing m with
  | zero =>
      refine ⟨0, .stop (deltaStep?_eq_none_iff.mpr fun e he => ?_)⟩
      by_contra hne
      obtain ⟨x, hx⟩ := Option.ne_none_iff_exists'.mp hne
      obtain ⟨t, _, _, rfl, _, _⟩ := elimination?_eq_some hx
      obtain ⟨pre, post, hfactors⟩ := List.append_of_mem he
      rw [← factorLeaves_factors, hfactors] at h
      simp [factorLeaves_append, factorLeaves, leaves] at h
  | succ fuel ih =>
      cases hs : deltaStep? m.factors with
      | none =>
          rw [eliminate_eq_self hs]
          exact ⟨0, .stop hs⟩
      | some s =>
          simp only [eliminate, hs]
          by_cases hmore : deltaStep? s.result.factors = none
          · rw [eliminate_eq_self hmore]
            exact ⟨1, .step hs (.stop hmore)⟩
          · have hlt := length_leaves_result_lt hs hmore
            obtain ⟨n, hn⟩ := ih (m := s.result) (by omega)
            exact ⟨n + 1, .step hs hn⟩

/-- The reduction of a term is the end of the loop. -/
theorem exists_eliminatesTo_reduceTerm (m : Expr) : ∃ n, m.EliminatesTo n m.reduceTerm :=
  exists_eliminatesTo (Nat.le_refl m.eliminationBound)

end Expr

/-! ## The number of steps -/

/-- Whether a tensor is a delta: a c-number of that name with one index in each list. -/
def Tensor.isDelta (t : Tensor) : Bool :=
  t.delta?.isSome

/-- Whether a factor is a delta. -/
def Expr.isDelta : Expr → Bool
  | .tensor t => t.isDelta
  | _ => false

theorem Tensor.isDelta_rename (σ : Renaming) (t : Tensor) : (t.rename σ).isDelta = t.isDelta := by
  rw [isDelta, delta?_rename, Option.isSome_map, isDelta]

namespace Expr

/-- A step takes one delta out of a product of tensors and makes no new one. -/
theorem exists_tree_result {v : Word} {s : DeltaStep} (h : deltaStep? v.tree.factors = some s) :
    ∃ v' : Word, s.result = v'.tree ∧ v'.countP Tensor.isDelta + 1 = v.countP Tensor.isDelta := by
  obtain ⟨v₁, d, v₂, p, q, rfl, hd, _, hothers⟩ := deltaStep?_tree h
  have hdelta : d.isDelta = true := by rw [Tensor.isDelta, hd]; rfl
  refine ⟨(v₁ ++ v₂).map (Tensor.rename s.elimination.toRenaming), ?_, ?_⟩
  · rw [DeltaStep.result, hothers, Word.rename_tree]
  · rw [List.countP_map, List.countP_append, List.countP_append, List.countP_cons, if_pos hdelta]
    have hsame : Tensor.isDelta ∘ Tensor.rename s.elimination.toRenaming = Tensor.isDelta :=
      funext (Tensor.isDelta_rename _)
    rw [hsame]
    omega

/-- A loop on a product of tensors ends with such a product, which has as many deltas less as steps
were taken. -/
theorem EliminatesTo.exists_tree {m r : Expr} {n : ℕ} (h : m.EliminatesTo n r) {v : Word}
    (hm : m = v.tree) :
    ∃ v' : Word, r = v'.tree ∧ n + v'.countP Tensor.isDelta = v.countP Tensor.isDelta := by
  induction h generalizing v with
  | stop _ => exact ⟨v, hm, Nat.zero_add _⟩
  | step hs _ ih =>
      rw [hm] at hs
      obtain ⟨u, hu, hcount⟩ := exists_tree_result hs
      obtain ⟨v', hv', hcount'⟩ := ih hu
      exact ⟨v', hv', by omega⟩

end Expr

/-! ## What is left -/

/-- Whether a delta between two indices cannot be eliminated: the indices differ, and their spaces
have nothing in common, or both indices are external, or one is external and general and the other
one occupied or virtual. -/
def Index.DeltaStays (p q : Index) : Prop :=
  p ≠ q ∧
    (p.space.meet? q.space = none ∨
      (p.external = true ∧ q.external = true) ∨
      (p.space = .general ∧ p.external = true ∧ (q.space = .occupied ∨ q.space = .virtual)) ∨
      (q.space = .general ∧ q.external = true ∧ (p.space = .occupied ∨ p.space = .virtual)))

theorem Elimination.ofIndices?_eq_none_iff {p q : Index} :
    ofIndices? p q = none ↔ p.DeltaStays q := by
  obtain ⟨s, m, x⟩ := p
  obtain ⟨t, n, y⟩ := q
  rw [ofIndices?, Index.DeltaStays]
  by_cases hpq : (⟨s, m, x⟩ : Index) = ⟨t, n, y⟩
  · simp [hpq]
  · rw [if_neg hpq, and_iff_right hpq]
    cases s <;> cases t <;> cases x <;> cases y <;> simp [Space.meet?]

namespace Expr

/-- No tensor in the terms of a term in which the loop ends can be eliminated. -/
theorem EliminatesTo.elimination?_eq_none {m r : Expr} {n : ℕ} (hm : m.IsMonomial)
    (h : m.EliminatesTo n r) : ∀ t ∈ r.terms, ∀ d ∈ t.2.leaves, d.elimination? = none := by
  obtain ⟨w, hw, rfl⟩ := isMonomial_iff.mp hm
  obtain ⟨v, rfl, _⟩ := h.exists_tree (Word.tree_eq_monomial hw).symm
  intro t ht d hd
  obtain ⟨s, u, hu, rfl⟩ := Word.mem_terms_tree ht
  rw [Word.leaves_monomial] at hd
  have hnone := h.deltaStep?_eq_none
  simp only [Word.tree, hu, Word.factors_scaled] at hnone
  exact deltaStep?_eq_none_iff.mp hnone (tensor d)
    (List.mem_append_right _ (List.mem_map_of_mem hd))

/-- A term none of whose tensors can be eliminated is its own reduction. -/
theorem reduceTerm_eq_self {m : Expr} (hm : m.IsMonomial)
    (h : ∀ d ∈ m.leaves, d.elimination? = none) : m.reduceTerm = m := by
  obtain ⟨w, _, rfl⟩ := isMonomial_iff.mp hm
  rw [Word.leaves_monomial] at h
  refine eliminate_eq_self ?_ _
  rw [deltaStep?_eq_none_iff, w.factors_monomial]
  exact List.forall_mem_map.mpr h

theorem countP_isDelta_monomial (w : Word) :
    w.monomial.factors.countP isDelta = w.countP Tensor.isDelta := by
  rw [w.factors_monomial, List.countP_map]
  rfl

/-- No tensor in the terms of a reduced tree can be eliminated. -/
theorem elimination?_eq_none_of_mem_reduceDeltas {e : Expr} (he : e.IsCanonical) :
    ∀ t ∈ e.reduceDeltas.terms, ∀ d ∈ t.2.leaves, d.elimination? = none := by
  have hmonomial : ∀ t ∈ e.terms, t.2.IsMonomial := fun t => isMonomial_of_mem_terms he
  apply of_mem_terms_weightedSum (P := fun m => ∀ d ∈ m.leaves, d.elimination? = none)
  · intro x hx
    obtain ⟨t, ht, rfl⟩ := List.mem_map.mp hx
    exact isCanonical_eliminate _ (hmonomial t ht).isCanonical
  · intro x hx
    obtain ⟨t, ht, rfl⟩ := List.mem_map.mp hx
    obtain ⟨n, hn⟩ := exists_eliminatesTo_reduceTerm t.2
    exact hn.elimination?_eq_none (hmonomial t ht)

end Expr

/-- **The elimination of deltas ends and is complete.**  In every term of every tree the loop comes
to an end.  In a term of a canonical tree it takes at most as many steps as there are deltas, every
delta that is left in the result is one that cannot be eliminated, and eliminating the deltas of the
result changes nothing. -/
theorem reduceDeltas_exhaustive :
    (∀ e : Expr, ∀ t ∈ e.terms, ∃ n, t.2.EliminatesTo n t.2.reduceTerm) ∧
    ∀ e : Expr, e.IsCanonical →
      (∀ t ∈ e.terms, ∀ n r, t.2.EliminatesTo n r → n ≤ t.2.factors.countP Expr.isDelta) ∧
      (∀ t ∈ e.reduceDeltas.terms, ∀ d ∈ t.2.leaves, ∀ p q : Index, d.name = "δ" →
        d.ladder = none → d.upper = [p] → d.lower = [q] → p.DeltaStays q) ∧
      e.reduceDeltas.reduceDeltas = e.reduceDeltas := by
  refine ⟨fun e t _ => Expr.exists_eliminatesTo_reduceTerm t.2, ?_⟩
  intro e he
  have hnone := Expr.elimination?_eq_none_of_mem_reduceDeltas he
  refine ⟨?_, ?_, ?_⟩
  · intro t ht n r h
    obtain ⟨w, hw, hm⟩ := Expr.isMonomial_iff.mp (Expr.isMonomial_of_mem_terms he ht)
    rw [hm] at h ⊢
    obtain ⟨v, _, hcount⟩ := h.exists_tree (Word.tree_eq_monomial hw).symm
    rw [Expr.countP_isDelta_monomial]
    omega
  · intro t ht d hd p q hname hladder hupper hlower
    have hdelta : d.delta? = some (p, q) :=
      Tensor.delta?_eq_some.mpr ⟨hname, hupper, hlower, hladder⟩
    have hstays := hnone t ht d hd
    rw [Tensor.elimination?, hdelta] at hstays
    exact Elimination.ofIndices?_eq_none_iff.mp hstays
  · have hcan := Expr.isCanonical_reduceDeltas he
    refine Expr.mapTerms_eq_self hcan fun t ht => ?_
    exact Expr.reduceTerm_eq_self (Expr.isMonomial_of_mem_terms hcan ht) (hnone t ht)

/-- A tensor with a chain of deltas from an occupied dummy through two general ones to a general
external index, and a delta between two external indices. -/
def narrowingChain : Expr :=
  .prod [.tensor (.cNumber "f" [.dummy .general 1] [.free .general 2] .plain),
    .tensor (.cNumber "δ" [.dummy .occupied 3] [.dummy .general 4] .plain),
    .tensor (.cNumber "δ" [.free .virtual 1] [.free .virtual 2] .plain),
    .tensor (.cNumber "δ" [.dummy .general 1] [.free .general 2] .plain),
    .tensor (.cNumber "δ" [.dummy .general 1] [.dummy .general 4] .plain)]

/-- What is left of it: the general dummies are narrowed to the occupied one, which the external
index cannot replace and which cannot replace the external index. -/
def narrowingChainReduced : Expr :=
  .prod [.tensor (.cNumber "f" [.dummy .occupied 3] [.free .general 2] .plain),
    .tensor (.cNumber "δ" [.dummy .occupied 3] [.free .general 2] .plain),
    .tensor (.cNumber "δ" [.free .virtual 1] [.free .virtual 2] .plain)]

/-- Two of the four deltas disappear in at most four steps; the others cannot be eliminated, and a
second pass leaves them. -/
theorem reduceDeltas_narrowingChain :
    narrowingChain.IsCanonical ∧ narrowingChain.reduceDeltas = narrowingChainReduced ∧
      (∃ n ≤ 4, narrowingChain.EliminatesTo n narrowingChain.reduceTerm) ∧
      (Index.dummy .occupied 3).DeltaStays (.free .general 2) ∧
      (Index.free .virtual 1).DeltaStays (.free .virtual 2) ∧
      narrowingChainReduced.reduceDeltas = narrowingChainReduced := by
  have hcan : narrowingChain.IsCanonical := Expr.canonical_eq_self_iff.mp (by decide +kernel)
  have hred : narrowingChain.reduceDeltas = narrowingChainReduced := by decide +kernel
  have hterm : (1, narrowingChain) ∈ narrowingChain.terms := List.mem_singleton.mpr rfl
  have hleft : (1, narrowingChainReduced) ∈ narrowingChainReduced.terms :=
    List.mem_singleton.mpr rfl
  obtain ⟨hends, hcanonical⟩ := reduceDeltas_exhaustive
  obtain ⟨hsteps, hstays, htwice⟩ := hcanonical narrowingChain hcan
  obtain ⟨n, hn⟩ := hends narrowingChain _ hterm
  rw [hred] at hstays htwice
  refine ⟨hcan, hred, ⟨n, hsteps _ hterm n _ hn, hn⟩, ?_, ?_, htwice⟩
  · exact hstays _ hleft (.cNumber "δ" [.dummy .occupied 3] [.free .general 2] .plain)
      (by decide +kernel) _ _ rfl rfl rfl rfl
  · exact hstays _ hleft (.cNumber "δ" [.free .virtual 1] [.free .virtual 2] .plain)
      (by decide +kernel) _ _ rfl rfl rfl rfl

end SecondQuant
