import SecondQuant.Proofs.OperatorChain
import SecondQuant.Proofs.Positions

/-!
# Contracted words

What a pattern makes of a single word: a sign, the tensors of its pairs and the operators at the
positions that it does not use.  Bringing these into normal form gives the contracted word, whose
chain is what the pattern leaves.

* `Pattern.contracts` — whether all pairs of a pattern can be contracted in a chain;
  `firstObstruction?_eq_none_iff` says that then no link is obstructed.
* `remaining`, `contractionTensors` — the operators that are left, and the values of the pairs.
* `Pattern.spares` — what a pattern leaves of any list, piece by piece.
* `Word.contracted`, `Word.contract` — the word that is left, and with its sign.
* `Word.chain_contracted`, `Word.isCanonical_contract` — its chain, and that it is canonical.
-/

namespace SecondQuant

/-! ## Contractible pairs -/

/-- Whether two operators can be contracted: they have the same statistics and opposite actions, and
their indices have a state in common. -/
def ChainOperator.contracts (l r : ChainOperator) : Bool :=
  l.ladder.statistics == r.ladder.statistics && l.ladder.action == r.ladder.action.adjoint &&
    (l.index.space.meet? r.index.space).isSome

/-- Whether a pair joins two operators of a chain that can be contracted. -/
def Pair.contracts (chain : List ChainOperator) (p : Pair) : Bool :=
  match chain[p.left]?, chain[p.right]? with
  | some l, some r => l.contracts r
  | _, _ => false

/-- Whether all pairs of a pattern can be contracted in a chain. -/
def Pattern.contracts (chain : List ChainOperator) (M : Pattern) : Bool :=
  M.pairs.all (Pair.contracts chain)

theorem Action.eq_adjoint_iff {a b : Action} : a = b.adjoint ↔ a ≠ b := by
  cases a <;> cases b <;> decide

theorem Link.obstruction?_eq_none_iff {l : Link} :
    l.obstruction? = none ↔ l.left.contracts l.right = true := by
  have hroles : l.hasIncompatibleRoles = false ↔
      l.left.ladder.statistics = l.right.ladder.statistics ∧
        l.left.ladder.action = l.right.ladder.action.adjoint := by
    simp [hasIncompatibleRoles, Action.eq_adjoint_iff]
  have hspaces : l.hasDisjointSpaces = false ↔
      (l.left.index.space.meet? l.right.index.space).isSome := by
    simp [hasDisjointSpaces]
  simp only [ChainOperator.contracts, Bool.and_eq_true, beq_iff_eq, ← hroles, ← hspaces]
  unfold obstruction?
  cases l.hasIncompatibleRoles <;> cases l.hasDisjointSpaces <;> simp

theorem link?_of_lt {chain : List ChainOperator} {p : Pair} (hl : p.left < chain.length)
    (hr : p.right < chain.length) :
    link? chain p = some ⟨p, chain[p.left], chain[p.right]⟩ := by
  rw [link?, List.getElem?_eq_getElem hl, List.getElem?_eq_getElem hr]

theorem links_cons {chain : List ChainOperator} {p : Pair} {l : Link}
    (h : link? chain p = some l) (ps : List Pair) :
    links chain (p :: ps) = l :: links chain ps := by
  rw [links, List.filterMap_cons, h, ← links]

theorem firstObstruction?_eq_none_iff {chain : List ChainOperator} {ps : List Pair}
    (h : ∀ k ∈ positions ps, k < chain.length) :
    firstObstruction? (links chain ps) = none ↔ ps.all (Pair.contracts chain) = true := by
  induction ps with
  | nil => simp [links, firstObstruction?]
  | cons p ps ih =>
      obtain ⟨hl, h⟩ := List.forall_mem_cons.mp h
      obtain ⟨hr, h⟩ := List.forall_mem_cons.mp h
      have hp : p.contracts chain = chain[p.left].contracts chain[p.right] := by
        rw [Pair.contracts, List.getElem?_eq_getElem hl, List.getElem?_eq_getElem hr]
      have hlink := Link.obstruction?_eq_none_iff (l := ⟨p, chain[p.left], chain[p.right]⟩)
      rw [links_cons (link?_of_lt hl hr), firstObstruction?, List.findSome?_cons, List.all_cons,
        Bool.and_eq_true, ← ih h, hp, ← hlink]
      cases Link.obstruction? ⟨p, chain[p.left], chain[p.right]⟩ with
      | none => simp [firstObstruction?]
      | some x => simp

theorem isVanishing_of_firstObstruction? {ls : List Link} {x : Outcome}
    (h : firstObstruction? ls = some x) : ∃ p c, x = .vanishes p c := by
  obtain ⟨l, _, hl⟩ := List.exists_of_findSome?_eq_some h
  obtain ⟨c, _, rfl⟩ := Option.map_eq_some_iff.mp hl
  exact ⟨l.pair, c, rfl⟩

/-! ## What a pattern leaves -/

/-- Taking pairs away one after the other leaves the operators at all other positions. -/
theorem foldl_without (live : Live) (ps : List Pair) :
    ps.foldl Live.without live = live.filter fun o => decide (o.2 ∉ positions ps) := by
  induction ps generalizing live with
  | nil => simp [positions]
  | cons p ps ih =>
      rw [List.foldl_cons, ih, Live.without, List.filter_filter]
      refine List.filter_congr fun o _ => Bool.eq_iff_iff.mpr ?_
      simp only [Bool.and_eq_true, decide_eq_true_eq, bne_iff_ne, positions, List.mem_cons, not_or]
      rw [and_comm, and_assoc]

/-- The operators of a chain at the positions that a pattern does not use. -/
def remaining (chain : List ChainOperator) (M : Pattern) : List ChainOperator :=
  (chain.zipIdx.filter fun o => decide (o.2 ∉ positions M.pairs)).map Prod.fst

theorem mem_of_mem_remaining {chain : List ChainOperator} {M : Pattern} {o : ChainOperator}
    (h : o ∈ remaining chain M) : o ∈ chain := by
  obtain ⟨x, hx, rfl⟩ := List.mem_map.mp h
  exact List.fst_mem_of_mem_zipIdx (List.mem_filter.mp hx).1

/-- A pattern that uses all positions of a chain leaves nothing. -/
theorem remaining_eq_nil {chain : List ChainOperator} {M : Pattern}
    (h : ∀ k, k < chain.length → k ∈ positions M.pairs) : remaining chain M = [] := by
  rw [remaining, List.map_eq_nil_iff, List.filter_eq_nil_iff]
  rintro ⟨o, k⟩ hk
  have hmem : k ∈ positions M.pairs := h k (List.snd_lt_of_mem_zipIdx hk)
  simp [hmem]

/-- The members of a list at positions that a pattern does not use, if the list stands from a
position on. -/
def Pattern.spares {α : Type} (M : Pattern) (j : ℕ) (l : List α) : List α :=
  ((l.zipIdx j).filter fun x => decide (x.2 ∉ positions M.pairs)).map Prod.fst

section Spares

variable {α β : Type} {M M' : Pattern}

theorem remaining_eq_spares (chain : List ChainOperator) (M : Pattern) :
    remaining chain M = M.spares 0 chain := rfl

theorem spares_append (j : ℕ) (l l' : List α) :
    M.spares j (l ++ l') = M.spares j l ++ M.spares (j + l.length) l' := by
  rw [Pattern.spares, List.zipIdx_append, List.filter_append, List.map_append]
  rfl

theorem spares_cons (j : ℕ) (x : α) (l : List α) :
    M.spares j (x :: l) = (if j ∈ positions M.pairs then [] else [x]) ++ M.spares (j + 1) l := by
  rw [Pattern.spares, List.zipIdx_cons, List.filter_cons]
  by_cases hj : j ∈ positions M.pairs
  · rw [if_pos hj, if_neg (by simpa using hj)]
    rfl
  · rw [if_neg hj, if_pos (by simpa using hj)]
    rfl

theorem spares_map (f : α → β) (j : ℕ) (l : List α) :
    M.spares j (l.map f) = (M.spares j l).map f := by
  rw [Pattern.spares, List.zipIdx_map, List.filter_map, List.map_map, Pattern.spares, List.map_map]
  rfl

theorem spares_congr {j : ℕ} {l : List α} (h : ∀ i, j ≤ i → i < j + l.length →
    (i ∈ positions M.pairs ↔ i ∈ positions M'.pairs)) : M.spares j l = M'.spares j l := by
  refine congrArg _ (List.filter_congr fun x hx => ?_)
  have hx := List.mem_zipIdx hx
  rw [decide_eq_decide, h x.2 hx.1 (by omega)]

end Spares

theorem residue_eq (chain : List ChainOperator) (M : Pattern) :
    residue chain M = ((remaining chain M).map ChainOperator.source).map Expr.tensor := by
  rw [residue, foldl_without, remaining, Live.ofChain, List.map_map, List.map_map]
  rfl

/-! ## Values as tensors -/

/-- The tensor of a contraction, unless its value is 1. -/
def Link.tensor? (orthonormal : Bool) (l : Link) : Option Tensor :=
  if orthonormal then
    if l.left.index = l.right.index then none
    else some (Tensor.between deltaName l.left.index l.right.index)
  else some (Tensor.between overlapName l.left.index l.right.index)

theorem Tensor.symmetry_between (name : String) (i j : Index) :
    (Tensor.between name i j).symmetry = .plain := by
  unfold Tensor.between
  split <;> rfl

theorem Tensor.isOperator_between (name : String) (i j : Index) :
    (Tensor.between name i j).isOperator = false := by
  unfold Tensor.between
  split <;> rfl

theorem Link.value_eq (orthonormal : Bool) (l : Link) :
    l.value orthonormal = (l.tensor? orthonormal).elim Expr.one Expr.tensor := by
  unfold value contractionValue tensor?
  split
  · split <;> rfl
  · rfl

theorem Link.plain_of_tensor? {orthonormal : Bool} {l : Link} {t : Tensor}
    (h : l.tensor? orthonormal = some t) : t.symmetry = .plain ∧ t.isOperator = false := by
  unfold tensor? at h
  split at h
  · split at h
    · cases h
    · obtain rfl := Option.some.inj h
      exact ⟨Tensor.symmetry_between _ _ _, Tensor.isOperator_between _ _ _⟩
  · obtain rfl := Option.some.inj h
    exact ⟨Tensor.symmetry_between _ _ _, Tensor.isOperator_between _ _ _⟩

/-- The tensors that the pairs of a pattern contribute, in pattern order. -/
def contractionTensors (orthonormal : Bool) (chain : List ChainOperator) (ps : List Pair) :
    List Tensor :=
  (links chain ps).filterMap (Link.tensor? orthonormal)

theorem plain_of_mem_contractionTensors {orthonormal : Bool} {chain : List ChainOperator}
    {ps : List Pair} {t : Tensor} (h : t ∈ contractionTensors orthonormal chain ps) :
    t.symmetry = .plain ∧ t.isOperator = false := by
  obtain ⟨l, _, hl⟩ := List.mem_filterMap.mp h
  exact l.plain_of_tensor? hl

/-! ## One word -/

namespace Word

/-- The sign that a pattern contributes to a word. -/
def contractionSign (M : Pattern) (w : Word) : Sign :=
  linksSign (Live.ofChain w.chain) (links w.chain M.pairs)

/-- The letters of a contracted word: its c-numbers, the tensors of the pairs and the operators that
are left. -/
def contractedLetters (o : Options) (M : Pattern) (w : Word) : Word :=
  w.cNumbers ++ contractionTensors o.orthonormal w.chain M.pairs ++
    (remaining w.chain M).map ChainOperator.source

/-- The word that a contraction leaves. -/
def contracted (o : Options) (M : Pattern) (w : Word) : Word :=
  normal (w.contractedLetters o M)

/-- The contraction of a word: a single weighted word, or nothing if some pair cannot be
contracted. -/
def contract (o : Options) (M : Pattern) (w : Word) : WordSum :=
  if M.contracts w.chain then [((w.contractionSign M).toRat, w.contracted o M)] else []

section Letters

variable {o : Options} {M : Pattern} {w : Word}

theorem cNumbers_contractedLetters :
    cNumbers (w.contractedLetters o M) =
      w.cNumbers ++ contractionTensors o.orthonormal w.chain M.pairs := by
  have hc : ∀ t ∈ w.cNumbers ++ contractionTensors o.orthonormal w.chain M.pairs,
      (!t.isOperator) = true := by
    intro t ht
    rcases List.mem_append.mp ht with hc | hv
    · simp [isOperator_of_mem_cNumbers hc]
    · simp [(plain_of_mem_contractionTensors hv).2]
  have hr : ∀ t ∈ (remaining w.chain M).map ChainOperator.source, ¬(!t.isOperator) = true := by
    intro t ht
    obtain ⟨x, hx, rfl⟩ := List.mem_map.mp ht
    simp [ChainOperator.isOperator_of_read? (read?_source (mem_of_mem_remaining hx))]
  rw [contractedLetters, cNumbers, List.filter_append, List.filter_eq_self.mpr hc,
    List.filter_eq_nil_iff.mpr hr, List.append_nil]

theorem operators_contractedLetters :
    operators (w.contractedLetters o M) = (remaining w.chain M).map ChainOperator.source := by
  have hc : ∀ t ∈ w.cNumbers ++ contractionTensors o.orthonormal w.chain M.pairs,
      ¬t.isOperator = true := by
    intro t ht
    rcases List.mem_append.mp ht with hc | hv
    · simp [isOperator_of_mem_cNumbers hc]
    · simp [(plain_of_mem_contractionTensors hv).2]
  have hr : ∀ t ∈ (remaining w.chain M).map ChainOperator.source, t.isOperator = true := by
    intro t ht
    obtain ⟨x, hx, rfl⟩ := List.mem_map.mp ht
    exact ChainOperator.isOperator_of_read? (read?_source (mem_of_mem_remaining hx))
  rw [contractedLetters, operators, List.filter_append, List.filter_eq_nil_iff.mpr hc,
    List.filter_eq_self.mpr hr, List.nil_append]

/-- A contracted word: its c-numbers and the tensors of the pairs in order, then what is left. -/
theorem contracted_eq (o : Options) (M : Pattern) (w : Word) :
    w.contracted o M =
      sortBy compare (w.cNumbers ++ contractionTensors o.orthonormal w.chain M.pairs) ++
        (remaining w.chain M).map ChainOperator.source := by
  rw [contracted, normal_eq, cNumbers_contractedLetters, operators_contractedLetters]

theorem operators_contracted :
    (w.contracted o M).operators = (remaining w.chain M).map ChainOperator.source := by
  rw [contracted, operators_normal, operators_contractedLetters]

/-- The chain of a contracted word is what the pattern leaves of the chain. -/
theorem chain_contracted : (w.contracted o M).chain = remaining w.chain M := by
  rw [chain, operators_contracted, List.filterMap_map]
  exact (List.filterMap_congr fun x hx => read?_source (mem_of_mem_remaining hx)).trans
    List.filterMap_some

theorem wellFormed_contracted : (w.contracted o M).WellFormed := by
  rw [WellFormed, operators_contracted]
  intro t ht
  obtain ⟨x, hx, rfl⟩ := List.mem_map.mp ht
  simp [read?_source (mem_of_mem_remaining hx)]

end Letters

theorem isCanonical_of_mem_chain {w : Word} (hw : w.IsCanonical) {o : ChainOperator}
    (ho : o ∈ w.chain) : o.source.IsCanonical := by
  obtain ⟨t, ht, hread⟩ := List.mem_filterMap.mp ho
  rw [ChainOperator.source_of_read? hread]
  exact hw.2 t (List.mem_filter.mp ht).1

theorem isCanonical_of_mem_contractedLetters {o : Options} {M : Pattern} {w : Word}
    (hw : w.IsCanonical) : ∀ t ∈ w.contractedLetters o M, t.IsCanonical := by
  have hc : ∀ t ∈ w.cNumbers, t.IsCanonical := fun t ht => hw.2 t (List.mem_filter.mp ht).1
  have hv : ∀ t ∈ contractionTensors o.orthonormal w.chain M.pairs, t.IsCanonical := fun t ht =>
    Tensor.isCanonical_of_plain (plain_of_mem_contractionTensors ht).1
  have hr : ∀ x ∈ remaining w.chain M, x.source.IsCanonical := fun x hx =>
    isCanonical_of_mem_chain hw (mem_of_mem_remaining hx)
  exact List.forall_mem_append.mpr
    ⟨List.forall_mem_append.mpr ⟨hc, hv⟩, List.forall_mem_map.mpr hr⟩

/-- The contraction of a canonical word is canonical. -/
theorem isCanonical_contract {o : Options} {M : Pattern} {w : Word} (hw : w.IsCanonical) :
    (w.contract o M).IsCanonical := by
  unfold contract
  split
  · exact WordSum.built_single (w.contractionSign M).toRat_ne_zero
      (built_normal (isCanonical_of_mem_contractedLetters hw))
  · exact WordSum.built_nil

end Word

end SecondQuant
