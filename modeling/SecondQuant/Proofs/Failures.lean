import SecondQuant.Proofs.DeltaElimination
import SecondQuant.Proofs.IndexSupport

/-!
# When an evaluation fails

A list of pairs is refused when it uses a position twice.  After that only the terms of the
canonical form matter: the first one with a malformed operator, or with fewer operators than the
pattern needs, decides whether the evaluation fails and with which error.  Nothing else is an error,
and what is evaluated never reaches beyond a chain.

* `FirstAt` — the first member of a list with a property, and its place; `mapM_eq_error_iff` — a
  list of computations fails as its first failing member does.
* `Expr.IsMalformed`, `Expr.IsTooShort`, `TermFault` — what can be wrong with a term.
* `contract_eq_error_iff`, `contract_succeeds_iff` — the contraction of an expression.
* `links_eq_map`, `deltaStep?_reduceTerm` — no pair reaches beyond a chain that passed the bounds,
  and the elimination of deltas comes to an end by itself.
* `evaluation_failures` — all of it.
-/

namespace SecondQuant

/-! ## First members -/

/-- Whether `a` stands at place `k` of a list and is its first member with a property. -/
def FirstAt {α : Type} (P : α → Prop) (l : List α) (k : Nat) (a : α) : Prop :=
  ∃ pre post, l = pre ++ a :: post ∧ pre.length = k ∧ (∀ b ∈ pre, ¬P b) ∧ P a

section FirstAt

variable {α β ε : Type} {P Q : α → Prop} {l : List α} {k : Nat} {a : α}

theorem FirstAt.mem (h : FirstAt P l k a) : a ∈ l := by
  obtain ⟨pre, post, rfl, _⟩ := h
  simp

theorem FirstAt.holds (h : FirstAt P l k a) : P a := by
  obtain ⟨_, _, _, _, _, ha⟩ := h
  exact ha

theorem FirstAt.congr (h : FirstAt P l k a) (hPQ : ∀ b ∈ l, P b ↔ Q b) : FirstAt Q l k a := by
  obtain ⟨pre, post, rfl, hk, hpre, ha⟩ := h
  refine ⟨pre, post, rfl, hk, fun b hb hq => hpre b hb ?_, (hPQ a (by simp)).mp ha⟩
  exact (hPQ b (List.mem_append_left _ hb)).mpr hq

theorem find?_eq_some_iff_firstAt {p : α → Bool} :
    l.find? p = some a ↔ ∃ k, FirstAt (fun b => p b = true) l k a := by
  rw [List.find?_eq_some_iff_append]
  constructor
  · rintro ⟨ha, pre, post, rfl, hpre⟩
    exact ⟨_, pre, post, rfl, rfl, fun b hb => by simpa using hpre b hb, ha⟩
  · rintro ⟨k, pre, post, rfl, _, hpre, ha⟩
    exact ⟨ha, pre, post, rfl, fun b hb => by simpa using hpre b hb⟩

theorem firstAt_cons {b : α} : FirstAt P (b :: l) k a ↔
    (k = 0 ∧ a = b ∧ P b) ∨ ∃ j, k = j + 1 ∧ ¬P b ∧ FirstAt P l j a := by
  constructor
  · rintro ⟨pre, post, heq, rfl, hpre, ha⟩
    cases pre with
    | nil =>
        obtain ⟨rfl, rfl⟩ := List.cons.inj heq
        exact .inl ⟨rfl, rfl, ha⟩
    | cons d pre =>
        obtain ⟨rfl, rfl⟩ := List.cons.inj heq
        obtain ⟨hb, hpre⟩ := List.forall_mem_cons.mp hpre
        exact .inr ⟨_, rfl, hb, pre, post, rfl, rfl, hpre, ha⟩
  · rintro (⟨rfl, rfl, hb⟩ | ⟨_, rfl, hb, pre, post, rfl, rfl, hpre, ha⟩)
    · exact ⟨[], l, rfl, rfl, List.forall_mem_nil _, hb⟩
    · exact ⟨b :: pre, post, rfl, rfl, List.forall_mem_cons.mpr ⟨hb, hpre⟩, ha⟩

/-- The first of the numbered members carries its place. -/
theorem firstAt_zipIdx {x : α × Nat} :
    (∃ j, FirstAt (fun y : α × Nat => P y.1) l.zipIdx j x) ↔ FirstAt P l x.2 x.1 := by
  constructor
  · rintro ⟨_, pre, post, heq, _, hpre, hx⟩
    obtain ⟨l₁, l₂, rfl, rfl, hl₂⟩ := List.zipIdx_eq_append_iff.mp heq
    obtain ⟨b, l₃, rfl, rfl, _⟩ := List.zipIdx_eq_cons_iff.mp hl₂.symm
    refine ⟨l₁, l₃, rfl, (Nat.zero_add _).symm, fun b hb => ?_, hx⟩
    obtain ⟨i, hi⟩ := List.mem_iff_getElem?.mp hb
    exact hpre (b, 0 + i) (List.mk_add_mem_zipIdx_iff_getElem?.mpr hi)
  · obtain ⟨b, k⟩ := x
    rintro ⟨pre, post, rfl, rfl, hpre, hx⟩
    refine ⟨_, pre.zipIdx, post.zipIdx (pre.length + 1), ?_, rfl, fun b hb => ?_, hx⟩
    · rw [List.zipIdx_append, List.zipIdx_cons, Nat.zero_add]
    · exact hpre b.1 (List.fst_mem_of_mem_zipIdx hb)

/-! ## Computations that fail -/

theorem bind_eq_error_iff {x : Except ε α} {f : α → Except ε β} {e : ε} :
    x >>= f = .error e ↔ x = .error e ∨ ∃ a, x = .ok a ∧ f a = .error e := by
  cases x with
  | error _ => simp [bind, Except.bind]
  | ok a => simp [bind, Except.bind]

/-- What is done with a result does not fail if it only puts it in another form. -/
theorem bind_pure_eq_error_iff {x : Except ε α} {g : α → β} {e : ε} :
    (do let a ← x; return g a) = .error e ↔ x = .error e := by
  rw [bind_eq_error_iff]
  refine or_iff_left ?_
  rintro ⟨_, _, ⟨⟩⟩

/-- A list of computations fails as its first failing member does. -/
theorem mapM_eq_error_iff {f : α → Except ε β} {e : ε} :
    l.mapM f = .error e ↔ ∃ k a, FirstAt (fun b => ∀ c, f b ≠ .ok c) l k a ∧ f a = .error e := by
  induction l with
  | nil =>
      rw [List.mapM_nil]
      constructor
      · rintro ⟨⟩
      · rintro ⟨_, _, h, _⟩
        exact absurd h.mem List.not_mem_nil
  | cons b l ih =>
      simp only [List.mapM_cons, bind_eq_error_iff (x := f b), bind_pure_eq_error_iff, ih]
      constructor
      · rintro (hb | ⟨c, hb, k, a, hfirst, ha⟩)
        · have hfails : ∀ c, f b ≠ .ok c := fun c hc => nomatch hb.symm.trans hc
          exact ⟨0, b, firstAt_cons.mpr (.inl ⟨rfl, rfl, hfails⟩), hb⟩
        · have hdone : ¬∀ c, f b ≠ .ok c := fun hfails => hfails c hb
          exact ⟨k + 1, a, firstAt_cons.mpr (.inr ⟨k, rfl, hdone, hfirst⟩), ha⟩
      · rintro ⟨k, a, hfirst, ha⟩
        obtain ⟨rfl, rfl, _⟩ | ⟨j, rfl, hdone, hfirst⟩ := firstAt_cons.mp hfirst
        · exact .inl ha
        · obtain ⟨c, hb⟩ := not_forall_not.mp hdone
          exact .inr ⟨c, hb, j, a, hfirst, ha⟩

/-- Computations that are told their places fail at the first member of the kind that fails. -/
theorem mapM_zipIdx_eq_error_iff {f : α × Nat → Except ε β} {e : ε}
    (hP : ∀ x ∈ l.zipIdx, (∀ c, f x ≠ .ok c) ↔ P x.1) :
    l.zipIdx.mapM f = .error e ↔ ∃ k a, FirstAt P l k a ∧ f (a, k) = .error e := by
  rw [mapM_eq_error_iff]
  constructor
  · rintro ⟨j, x, hfirst, hx⟩
    exact ⟨x.2, x.1, firstAt_zipIdx.mp ⟨j, hfirst.congr hP⟩, hx⟩
  · rintro ⟨k, a, hfirst, ha⟩
    obtain ⟨j, hnumbered⟩ := firstAt_zipIdx (x := (a, k)) |>.mpr hfirst
    exact ⟨j, (a, k), hnumbered.congr fun x hx => (hP x hx).symm, ha⟩

end FirstAt

/-! ## Faults of a term -/

/-- Whether the tensor carries a ladder tag, but not exactly one lower and no upper index. -/
def Tensor.IsMalformed (t : Tensor) : Prop :=
  t.isOperator = true ∧ ¬(t.upper = [] ∧ t.lower.length = 1)

/-- Whether one of the operators of a term is malformed. -/
def Expr.IsMalformed (m : Expr) : Prop :=
  ∃ t ∈ m.operators, t.IsMalformed

/-- Whether a pattern uses a position beyond the operators of a term. -/
def Expr.IsTooShort (M : Pattern) (m : Expr) : Prop :=
  ∃ k ∈ positions M.pairs, m.operators.length ≤ k

instance (t : Tensor) : Decidable t.IsMalformed :=
  inferInstanceAs (Decidable (_ ∧ _))

instance (m : Expr) : Decidable m.IsMalformed :=
  inferInstanceAs (Decidable (∃ t ∈ m.operators, t.IsMalformed))

instance (M : Pattern) (m : Expr) : Decidable (m.IsTooShort M) :=
  inferInstanceAs (Decidable (∃ k ∈ positions M.pairs, m.operators.length ≤ k))

/-- The error of the term at place `k`: a malformed operator comes before a position that is out of
the chain, and the first of each kind is reported. -/
inductive TermFault (M : Pattern) (k : Nat) (m : Expr) : Error → Prop
  | malformed {j : Nat} {t : Tensor} (first : FirstAt Tensor.IsMalformed m.operators j t) :
      TermFault M k m (.malformed (.ambiguousOperator t.name))
  | tooShort {j : Nat} {p : Pair} (wellFormed : ¬m.IsMalformed)
      (first : FirstAt (fun q => m.operators.length ≤ q.high) M.pairs j p) :
      TermFault M k m (.invalidPattern (.outOfChain p.high m.operators.length) (some ⟨k, m⟩))

/-- An operator is malformed when it cannot be read. -/
theorem ChainOperator.ofTensor_eq_error_iff {t : Tensor} (ht : t.isOperator = true) {x : Error} :
    ofTensor t = .error x ↔ t.IsMalformed ∧ x = .malformed (.ambiguousOperator t.name) := by
  obtain ⟨name, upper, lower, symmetry, ladder⟩ := t
  obtain ⟨l, rfl⟩ := Option.isSome_iff_exists.mp ht
  match upper, lower with
  | [], [i] => simp [ofTensor, Tensor.elementary?, Tensor.IsMalformed]
  | [], [] => simp [ofTensor, Tensor.elementary?, Tensor.IsMalformed, Tensor.isOperator, eq_comm]
  | [], _ :: _ :: _ =>
      simp [ofTensor, Tensor.elementary?, Tensor.IsMalformed, Tensor.isOperator, eq_comm]
  | _ :: _, _ => simp [ofTensor, Tensor.elementary?, Tensor.IsMalformed, Tensor.isOperator, eq_comm]

theorem ChainOperator.not_ofTensor_ok_iff {t : Tensor} (ht : t.isOperator = true) :
    (∀ o, ofTensor t ≠ .ok o) ↔ t.IsMalformed := by
  have herror := fun x => ofTensor_eq_error_iff (x := x) ht
  cases h : ofTensor t with
  | ok o =>
      refine ⟨fun hne => absurd rfl (hne o), fun hm => ?_⟩
      have := (herror _).mpr ⟨hm, rfl⟩
      rw [h] at this
      cases this
  | error x => exact ⟨fun _ => ((herror x).mp h).1, fun _ _ => nofun⟩

namespace Word

variable {w : Word} {M : Pattern}

theorem operators_monomial (w : Word) : w.monomial.operators = w.operators := by
  rw [Expr.operators, leaves_monomial, operators]

/-- Reading the operators of a term fails with the first malformed one. -/
theorem operatorChain_eq_error_iff {x : Error} : w.monomial.operatorChain = .error x ↔
    ∃ k t, FirstAt Tensor.IsMalformed w.operators k t ∧
      x = .malformed (.ambiguousOperator t.name) := by
  have hop : ∀ t ∈ w.operators, t.isOperator = true := fun t => isOperator_of_mem_operators
  rw [Expr.operatorChain, factors_monomial, filterMap_operatorTensor?, mapM_eq_error_iff]
  constructor
  · rintro ⟨k, t, hfirst, hx⟩
    refine ⟨k, t, hfirst.congr fun s hs => ChainOperator.not_ofTensor_ok_iff (hop s hs), ?_⟩
    exact ((ChainOperator.ofTensor_eq_error_iff (hop t hfirst.mem)).mp hx).2
  · rintro ⟨k, t, hfirst, rfl⟩
    refine ⟨k, t, hfirst.congr fun s hs => (ChainOperator.not_ofTensor_ok_iff (hop s hs)).symm, ?_⟩
    exact (ChainOperator.ofTensor_eq_error_iff (hop t hfirst.mem)).mpr ⟨hfirst.holds, rfl⟩

theorem wellFormed_iff : w.WellFormed ↔ ¬w.monomial.IsMalformed := by
  have hop : ∀ t ∈ w.operators, t.isOperator = true := fun t => isOperator_of_mem_operators
  rw [Expr.IsMalformed, operators_monomial, not_exists]
  refine forall_congr' fun t => ?_
  rw [not_and]
  refine imp_congr_right fun ht => ?_
  rw [← ChainOperator.not_ofTensor_ok_iff (hop t ht), Option.isSome_iff_exists]
  simp [ChainOperator.ofTensor_eq_ok_iff]

/-- The chain of a well-formed word has all its operators. -/
theorem length_chain (h : w.WellFormed) : w.chain.length = w.operators.length := by
  have hread := forall₂_eq_some_iff.mpr ⟨h, rfl⟩
  exact hread.length_eq.symm

theorem accepts_iff :
    w.Accepts M ↔ ¬w.monomial.IsMalformed ∧ ¬w.monomial.IsTooShort M := by
  rw [Accepts, wellFormed_iff]
  refine and_congr_right fun h => ?_
  rw [Pattern.Fits, length_chain (wellFormed_iff.mpr h), Expr.IsTooShort, operators_monomial]
  simp

/-- A term is not evaluated when it is malformed or too short, at any rank. -/
theorem contractTerm_rejects_iff {o : Options} {k : Nat} {c : ℚ} :
    (∀ y, (do let x ← contractTerm o M k w.monomial; return (c, x)) ≠ .ok y) ↔
      w.monomial.IsMalformed ∨ w.monomial.IsTooShort M := by
  have haccepts : (∃ y, (do let x ← contractTerm o M k w.monomial; return (c, x)) = .ok y) ↔
      w.Accepts M := by
    simp only [bind_eq_ok_iff, contractTerm_monomial]
    constructor
    · rintro ⟨_, _, ⟨haccepts, _⟩, _⟩
      exact haccepts
    · intro haccepts
      exact ⟨_, _, ⟨haccepts, rfl⟩, rfl⟩
  rw [← not_exists, haccepts, accepts_iff, ← not_or, not_not]

/-- A term fails with its fault, whatever the options are. -/
theorem contractTerm_eq_error_iff {o : Options} {k : Nat} {x : Error} :
    contractTerm o M k w.monomial = .error x ↔ TermFault M k w.monomial x := by
  rw [contractTerm, bind_eq_error_iff, operatorChain_eq_error_iff]
  constructor
  · rintro (⟨j, t, hfirst, rfl⟩ | ⟨chain, hchain, h⟩)
    · exact .malformed (operators_monomial w ▸ hfirst)
    · -- The operators were read, so the bounds reported the error.
      obtain ⟨hw, rfl⟩ := operatorChain_monomial.mp hchain
      split at h
      · next f hf =>
          obtain ⟨p, hp, rfl⟩ := Option.map_eq_some_iff.mp hf
          obtain ⟨j, hfirst⟩ := find?_eq_some_iff_firstAt.mp hp
          obtain rfl := Except.error.inj h
          rw [length_chain hw, ← operators_monomial] at hfirst ⊢
          exact .tooShort (wellFormed_iff.mp hw)
            (hfirst.congr fun q _ => decide_eq_true_iff)
      · cases h
  · rintro (⟨hfirst⟩ | ⟨hw, hfirst⟩)
    · rw [operators_monomial] at hfirst
      exact .inl ⟨_, _, hfirst, rfl⟩
    · have hw := wellFormed_iff.mpr hw
      refine .inr ⟨w.chain, operatorChain_monomial.mpr ⟨hw, rfl⟩, ?_⟩
      have hfind := find?_eq_some_iff_firstAt.mpr
        ⟨_, hfirst.congr fun q _ => decide_eq_true_iff.symm⟩
      rw [length_chain hw, ← operators_monomial, Pattern.outOfChain?, hfind]
      rfl

end Word

/-! ## All terms -/

theorem exists_word_of_mem_terms {e : Expr} {t : Term} (h : t ∈ e.canonical.terms) :
    ∃ w : Word, (t.1, w) ∈ e.words ∧ t.2 = w.monomial := by
  rw [Expr.terms_canonical] at h
  obtain ⟨s, hs, rfl⟩ := List.mem_map.mp h
  exact ⟨s.2, hs, rfl⟩

/-- A contraction succeeds when no term of the canonical form is malformed or too short. -/
theorem contract_succeeds_iff {o : Options} {M : Pattern} {e : Expr} :
    (∃ x, contract o M e = .ok x) ↔
      ∀ t ∈ e.canonical.terms, ¬t.2.IsMalformed ∧ ¬t.2.IsTooShort M := by
  simp only [contract_eq_ok_iff, exists_and_left, exists_eq, and_true, Expr.terms_canonical,
    List.forall_mem_map, Word.accepts_iff]

/-- A contraction fails with the fault of the first term that is malformed or too short. -/
theorem contract_eq_error_iff {o : Options} {M : Pattern} {e : Expr} {x : Error} :
    contract o M e = .error x ↔ ∃ k t,
      FirstAt (fun t => t.2.IsMalformed ∨ t.2.IsTooShort M) e.canonical.terms k t ∧
        TermFault M k t.2 x := by
  have hrejects : ∀ y ∈ e.canonical.terms.zipIdx,
      (∀ c, (do let z ← contractTerm o M y.2 y.1.2; return (y.1.1, z)) ≠ .ok c) ↔
        y.1.2.IsMalformed ∨ y.1.2.IsTooShort M := by
    intro y hy
    obtain ⟨w, _, hw⟩ := exists_word_of_mem_terms (List.fst_mem_of_mem_zipIdx hy)
    rw [hw]
    exact Word.contractTerm_rejects_iff
  -- The place of the first such term is also the rank that its error names.
  rw [contract, bind_pure_eq_error_iff, contractTerms,
    mapM_zipIdx_eq_error_iff (P := fun t : Term => t.2.IsMalformed ∨ t.2.IsTooShort M) hrejects]
  refine exists_congr fun k => exists_congr fun t => and_congr_right fun hfirst => ?_
  obtain ⟨w, _, hw⟩ := exists_word_of_mem_terms hfirst.mem
  rw [bind_pure_eq_error_iff, hw, Word.contractTerm_eq_error_iff]

/-! ## Lists of pairs -/

namespace Pattern

/-- A list of pairs is refused exactly when it uses a position twice. -/
theorem ofPairs_fails_iff {ps : List Pair} :
    (∃ f, ofPairs ps = .error (.invalidPattern f none)) ↔
      ∃ k, 2 ≤ (positions ps).count k := by
  have hnodup : (∃ k, 2 ≤ (positions ps).count k) ↔ ¬(positions ps).Nodup := by
    rw [List.nodup_iff_count_le_one]
    push Not
    rfl
  have hfault : fault? [] ps = none ↔ (positions ps).Nodup := by
    rw [fault?_eq_none_iff]
    exact and_iff_left fun _ _ => List.not_mem_nil
  rw [hnodup, ← hfault, ofPairs]
  split
  · next f h => simp [h]
  · next h => simp [h]

theorem ofPairs_eq_ok_iff {ps : List Pair} {M : Pattern} : ofPairs ps = .ok M ↔ M.pairs = ps :=
  ⟨pairs_of_ofPairs, fun h => h ▸ ofPairs_pairs M⟩

/-- The only error of a list of pairs is a fault of the list. -/
theorem exists_of_ofPairs_eq_error {ps : List Pair} {x : Error} (h : ofPairs ps = .error x) :
    ∃ f, x = .invalidPattern f none := by
  unfold ofPairs at h
  split at h
  · exact ⟨_, (Except.error.inj h).symm⟩
  · cases h

end Pattern

/-! ## Accesses to a chain -/

/-- A pattern that passed the bounds finds both operators of each of its pairs. -/
theorem links_eq_map {M : Pattern} {chain : List ChainOperator}
    (h : M.outOfChain? chain.length = none) :
    ∀ p ∈ M.pairs, p.high < chain.length ∧
      ∃ l ∈ links chain M.pairs, l.pair = p ∧
        chain[p.left]? = some l.left ∧ chain[p.right]? = some l.right := by
  intro p hp
  have hfits := Pattern.outOfChain?_eq_none_iff.mp h
  have hl := hfits p.left (mem_positions.mpr ⟨p, hp, .inl rfl⟩)
  have hr := hfits p.right (mem_positions.mpr ⟨p, hp, .inr rfl⟩)
  refine ⟨max_lt hl hr, _, List.mem_filterMap.mpr ⟨p, hp, link?_of_lt hl hr⟩, rfl, ?_, ?_⟩
  · exact List.getElem?_eq_getElem hl
  · exact List.getElem?_eq_getElem hr

/-! ## The elimination of deltas -/

/-- Each elimination takes a letter away, so as many as there are letters leave no delta. -/
theorem deltaStep?_eliminate_tree {fuel : Nat} {v : Word} (h : v.length ≤ fuel) :
    Expr.deltaStep? (Expr.eliminate fuel v.tree).factors = none := by
  induction fuel generalizing v with
  | zero =>
      obtain rfl := List.length_eq_zero_iff.mp (Nat.le_zero.mp h)
      rfl
  | succ fuel ih =>
      rw [Expr.eliminate]
      split
      · assumption
      · next x hx =>
          obtain ⟨v₁, d, v₂, _, _, rfl, _, _, hothers⟩ := Expr.deltaStep?_tree hx
          rw [Expr.DeltaStep.result, hothers, Word.rename_tree]
          refine ih ?_
          simp only [List.length_append, List.length_cons, List.length_map] at h ⊢
          omega

/-- The elimination of deltas in a term stops because no delta is left, not for want of fuel. -/
theorem deltaStep?_reduceTerm {m : Expr} (hm : m.IsMonomial) :
    Expr.deltaStep? m.reduceTerm.factors = none := by
  obtain ⟨w, hw, rfl⟩ := Expr.isMonomial_iff.mp hm
  rw [Expr.reduceTerm, Expr.eliminationBound, Word.leaves_monomial, ← Word.tree_eq_monomial hw]
  exact deltaStep?_eliminate_tree (Nat.le_refl _)

/-! ## All failures -/

theorem vacuumMean_eq_error_iff {ps : List Pair} {e : Expr} {x : Error} :
    vacuumMean ps e = .error x ↔ Pattern.ofPairs ps = .error x ∨
      ∃ M, M.pairs = ps ∧ contract {} M e = .error x := by
  rw [vacuumMean, bind_eq_error_iff]
  refine or_congr_right (exists_congr fun M => ?_)
  rw [Pattern.ofPairs_eq_ok_iff, bind_pure_eq_error_iff]

theorem vacuumMean_succeeds_iff {ps : List Pair} {e : Expr} :
    (∃ y, vacuumMean ps e = .ok y) ↔
      ∃ M, M.pairs = ps ∧ ∃ x, contract {} M e = .ok x := by
  simp only [vacuumMean, bind_eq_ok_iff, Pattern.ofPairs_eq_ok_iff]
  constructor
  · rintro ⟨_, M, hM, x, hx, _⟩
    exact ⟨M, hM, x, hx⟩
  · rintro ⟨M, hM, x, hx⟩
    exact ⟨_, M, hM, x, hx, rfl⟩

theorem contract_ne_divisionByZero (o : Options) (M : Pattern) (e : Expr) :
    contract o M e ≠ .error .divisionByZero := by
  intro h
  obtain ⟨_, _, _, ⟨⟩⟩ := contract_eq_error_iff.mp h

theorem vacuumMean_ne_divisionByZero (ps : List Pair) (e : Expr) :
    vacuumMean ps e ≠ .error .divisionByZero := by
  intro h
  rcases vacuumMean_eq_error_iff.mp h with h | ⟨M, _, h⟩
  · obtain ⟨_, ⟨⟩⟩ := Pattern.exists_of_ofPairs_eq_error h
  · exact contract_ne_divisionByZero _ M e h

/-- **When an evaluation fails.**  A list of pairs is refused exactly when it uses a position twice.
After that the first term of the canonical form that is malformed or too short decides: without one
the contraction succeeds, and with one it fails with the fault of that term.  A division by zero is
never reported; every pair of a pattern that passed the bounds finds both its operators; and the
elimination of deltas comes to an end. -/
theorem evaluation_failures :
    (∀ ps : List Pair,
      ((∃ f, Pattern.ofPairs ps = .error (.invalidPattern f none)) ↔
        ∃ k, 2 ≤ (positions ps).count k) ∧
      ∀ M, Pattern.ofPairs ps = .ok M ↔ M.pairs = ps) ∧
    (∀ (o : Options) (M : Pattern) (e : Expr),
      ((∃ x, contract o M e = .ok x) ↔
        ∀ t ∈ e.canonical.terms, ¬t.2.IsMalformed ∧ ¬t.2.IsTooShort M) ∧
      (∀ x, contract o M e = .error x ↔ ∃ k t,
        FirstAt (fun t => t.2.IsMalformed ∨ t.2.IsTooShort M) e.canonical.terms k t ∧
          TermFault M k t.2 x) ∧
      contract o M e ≠ .error .divisionByZero) ∧
    (∀ (ps : List Pair) (e : Expr),
      ((∃ y, vacuumMean ps e = .ok y) ↔ ∃ M, M.pairs = ps ∧ ∃ x, contract {} M e = .ok x) ∧
      (∀ x, vacuumMean ps e = .error x ↔
        Pattern.ofPairs ps = .error x ∨ ∃ M, M.pairs = ps ∧ contract {} M e = .error x) ∧
      vacuumMean ps e ≠ .error .divisionByZero) ∧
    (∀ (M : Pattern) (chain : List ChainOperator), M.outOfChain? chain.length = none →
      ∀ p ∈ M.pairs, p.high < chain.length ∧ ∃ l ∈ links chain M.pairs, l.pair = p ∧
        chain[p.left]? = some l.left ∧ chain[p.right]? = some l.right) ∧
    ∀ m : Expr, m.IsMonomial → Expr.deltaStep? m.reduceTerm.factors = none := by
  refine ⟨fun _ => ⟨Pattern.ofPairs_fails_iff, fun _ => Pattern.ofPairs_eq_ok_iff⟩, ?_, ?_, ?_, ?_⟩
  · intro o M e
    exact ⟨contract_succeeds_iff, fun _ => contract_eq_error_iff, contract_ne_divisionByZero o M e⟩
  · intro ps e
    exact ⟨vacuumMean_succeeds_iff, fun _ => vacuumMean_eq_error_iff,
      vacuumMean_ne_divisionByZero ps e⟩
  · exact fun _ _ => links_eq_map
  · exact fun _ => deltaStep?_reduceTerm

/-- A c-number and two operators. -/
def shortTerm : Expr :=
  .prod [.tensor (.cNumber "f" [.dummy .general 1] [.dummy .general 2] .plain),
    .annihilation .fermion (.dummy .general 1), .creation .fermion (.dummy .general 2)]

/-- The same term beside one with four operators. -/
def shortAndLong : Expr :=
  .sum [(1, shortTerm),
    (1, .prod [.annihilation .fermion (.dummy .general 3), .creation .fermion (.dummy .general 4),
      .annihilation .fermion (.dummy .general 5), .creation .fermion (.dummy .general 6)])]

/-- Of the two terms the first one is too short for a pair of the last two operators.  A pattern of
its own length finds its operators, and its deltas are eliminated to the end. -/
theorem evaluation_failures_shortAndLong :
    vacuumMean [⟨2, 3⟩] shortAndLong =
        .error (.invalidPattern (.outOfChain 3 2) (some ⟨0, shortTerm⟩)) ∧
      (∀ chain, shortTerm.operatorChain = .ok chain → ∃ l ∈ links chain [⟨0, 1⟩],
        chain[0]? = some l.left ∧ chain[1]? = some l.right) ∧
      Expr.deltaStep? shortTerm.reduceTerm.factors = none := by
  obtain ⟨_, hcontract, hmean, haccess, hdelta⟩ := evaluation_failures
  have hterms : shortAndLong.canonical.terms.head? = some (1, shortTerm) := by decide +kernel
  obtain ⟨rest, hterms⟩ := List.head?_eq_some_iff.mp hterms
  refine ⟨?_, ?_, ?_⟩
  · let M : Pattern := ⟨[⟨2, 3⟩], by decide⟩
    refine ((hmean [⟨2, 3⟩] shortAndLong).2.1 _).mpr (.inr ⟨M, rfl, ?_⟩)
    refine ((hcontract {} M shortAndLong).2.1 _).mpr ⟨0, (1, shortTerm), ?_, ?_⟩
    · exact ⟨[], rest, hterms, rfl, List.forall_mem_nil _, .inr (by decide +kernel)⟩
    · have hfirst : FirstAt (fun q : Pair => shortTerm.operators.length ≤ q.high)
          M.pairs 0 ⟨2, 3⟩ :=
        ⟨[], [], rfl, rfl, List.forall_mem_nil _, by decide +kernel⟩
      exact .tooShort (by decide +kernel) hfirst
  · intro chain hchain
    let M : Pattern := ⟨[⟨0, 1⟩], by decide⟩
    have hlength : shortTerm.operatorChain.toOption.map List.length = some 2 := by decide +kernel
    rw [hchain] at hlength
    have hfits : M.outOfChain? chain.length = none := by
      rw [Option.some.inj hlength]
      decide
    obtain ⟨_, l, hl, _, hboth⟩ := haccess M chain hfits ⟨0, 1⟩ (by simp [M])
    exact ⟨l, hl, hboth⟩
  · have hcan : shortTerm.canonical = shortTerm ∧ (1, shortTerm) ∈ shortTerm.terms :=
      ⟨by decide +kernel, by decide +kernel⟩
    exact hdelta _ (Expr.isMonomial_of_mem_terms (Expr.canonical_eq_self_iff.mp hcan.1) hcan.2)

end SecondQuant
