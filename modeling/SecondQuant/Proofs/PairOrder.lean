import SecondQuant.Proofs.Linearity
import SecondQuant.Proofs.Wick

/-!
# Order and orientation of pairs

A pattern is a list, but a contraction depends on the set of its pairs only.  Each step counts the
fermions that earlier pairs have left, so every single sign changes with the order; their product
does not, because two pairs cross each other or not.  Turning a pair around costs one exchange if it
joins fermions.

* `Agree` — two computations that succeed with related results or fail with errors of one kind.
* `agree_contract` — patterns that fit the same chains fail alike.
* `sortingSign_positions_perm`, `Word.contract_perm` — the order of the pairs.
* `Pattern.reorient`, `sortingSign_positions_orient`, `Word.contract_reorient` — their orientation.
* `contract_order_and_orientation` — both, for expressions.
-/

namespace SecondQuant

/-! ## Computations that agree -/

/-- Whether two errors are of the same kind. -/
def Error.SameKind : Error → Error → Prop
  | .malformed _, .malformed _ => True
  | .divisionByZero, .divisionByZero => True
  | .invalidPattern _ _, .invalidPattern _ _ => True
  | _, _ => False

theorem Error.sameKind_refl (x : Error) : x.SameKind x := by
  cases x <;> trivial

/-- Whether two computations succeed with related results or fail with errors of one kind. -/
def Agree {α β : Type} (R : α → β → Prop) : Except Error α → Except Error β → Prop
  | .ok a, .ok b => R a b
  | .error x, .error y => x.SameKind y
  | _, _ => False

namespace Agree

variable {α β γ δ : Type} {R : α → β → Prop} {S : γ → δ → Prop}

theorem refl (x : Except Error α) : Agree (· = ·) x x := by
  cases x with
  | error x => exact x.sameKind_refl
  | ok a => rfl

theorem bind {x : Except Error α} {y : Except Error β} {f : α → Except Error γ}
    {g : β → Except Error δ} (hx : Agree R x y) (hf : ∀ a b, R a b → Agree S (f a) (g b)) :
    Agree S (x >>= f) (y >>= g) := by
  cases x with
  | error x =>
      cases y with
      | error y => exact hx
      | ok b => exact hx.elim
  | ok a =>
      cases y with
      | error y => exact hx.elim
      | ok b => exact hf a b hx

theorem mapM {f : α → Except Error γ} {g : α → Except Error δ} {l : List α}
    (h : ∀ a ∈ l, Agree S (f a) (g a)) :
    Agree (fun _ _ => True) (l.mapM f) (l.mapM g) := by
  induction l with
  | nil => trivial
  | cons a l ih =>
      obtain ⟨ha, hl⟩ := List.forall_mem_cons.mp h
      rw [List.mapM_cons, List.mapM_cons]
      exact bind ha fun _ _ _ => bind (ih hl) fun _ _ _ => trivial

/-- Results that are related whenever both computations succeed. -/
theorem of_ok {x : Except Error α} {y : Except Error β} (h : Agree (fun _ _ => True) x y)
    (hok : ∀ a b, x = .ok a → y = .ok b → R a b) : Agree R x y := by
  cases x with
  | error x =>
      cases y with
      | error y => exact h
      | ok b => exact h.elim
  | ok a =>
      cases y with
      | error y => exact h.elim
      | ok b => exact hok a b rfl rfl

theorem exists_ok {x : Except Error α} {y : Except Error β} {a : α} (h : Agree R x y)
    (hx : x = .ok a) : ∃ b, y = .ok b ∧ R a b := by
  subst hx
  cases y with
  | error y => exact h.elim
  | ok b => exact ⟨b, rfl, h⟩

end Agree

section Failure

variable {o : Options} {M M' : Pattern}

/-- Patterns that fit the same chains fail alike in one term: a malformed operator is found before
the pattern is looked at. -/
theorem agree_contractTerm (h : ∀ n, M.Fits n ↔ M'.Fits n) (rank : Nat) (m : Expr) :
    Agree (fun _ _ => True) (contractTerm o M rank m) (contractTerm o M' rank m) := by
  refine Agree.bind (Agree.refl m.operatorChain) ?_
  rintro chain _ rfl
  have hfit : M.outOfChain? chain.length = none ↔ M'.outOfChain? chain.length = none := by
    rw [Pattern.outOfChain?_eq_none_iff, Pattern.outOfChain?_eq_none_iff]
    exact h chain.length
  cases hM : M.outOfChain? chain.length with
  | none =>
      rw [hfit.mp hM]
      trivial
  | some f =>
      cases hM' : M'.outOfChain? chain.length with
      | none => simp [hfit.mpr hM'] at hM
      | some f' => trivial

/-- Patterns that fit the same chains fail alike: the first term that is refused decides. -/
theorem agree_contract (h : ∀ n, M.Fits n ↔ M'.Fits n) (e : Expr) :
    Agree (fun _ _ => True) (contract o M e) (contract o M' e) := by
  have hterms : Agree (fun _ _ => True) (contractTerms o M e.canonical.terms)
      (contractTerms o M' e.canonical.terms) := by
    refine Agree.mapM (S := fun _ _ => True) ?_
    intro t _
    exact Agree.bind (agree_contractTerm h t.2 t.1.2) fun _ _ _ => trivial
  exact Agree.bind hterms fun _ _ _ => trivial

end Failure

/-! ## The order of the pairs -/

theorem positions_perm {ps qs : List Pair} (h : ps.Perm qs) :
    (positions ps).Perm (positions qs) := by
  induction h with
  | nil => exact List.Perm.nil
  | cons p _ ih => exact (ih.cons p.right).cons p.left
  | swap p q ps =>
      show ([q.left, q.right] ++ ([p.left, p.right] ++ positions ps)).Perm
        ([p.left, p.right] ++ ([q.left, q.right] ++ positions ps))
      exact List.perm_append_comm_assoc _ _ _
  | trans _ _ ih₁ ih₂ => exact ih₁.trans ih₂

theorem Pair.exchanges_perm {js ks : List Nat} (h : js.Perm ks) (p : Pair) :
    p.exchanges js = p.exchanges ks := by
  rw [Pair.exchanges, Pair.exchanges, h.countP_eq]

/-- Two pairs cross each other or not: the positions of each that the other encloses make an even
number together. -/
theorem Pair.even_enclosed {p q : Pair} (hl : p.left ≠ q.left ∧ p.left ≠ q.right)
    (hr : p.right ≠ q.left ∧ p.right ≠ q.right) :
    ([q.left, q.right].countP p.encloses + [p.left, p.right].countP q.encloses) % 2 = 0 := by
  obtain ⟨hll, hlr⟩ := hl
  obtain ⟨hrl, hrr⟩ := hr
  simp only [List.countP_cons, List.countP_nil, Pair.encloses_iff]
  split_ifs <;> omega

theorem Sign.ofParity_congr {m n : Nat} (h : (m + n) % 2 = 0) :
    Sign.ofParity m = Sign.ofParity n := by
  rcases Nat.mod_two_eq_zero_or_one m with hm | hm
  · rw [Sign.ofParity_of_even hm, Sign.ofParity_of_even (by omega)]
  · rw [Sign.ofParity_of_odd hm, Sign.ofParity_of_odd (by omega)]

/-- Two pairs in front of a list contribute their exchanges in the list and the positions of the
second that the first encloses. -/
theorem sortingSign_two_pairs {p q : Pair} {ks : List Nat}
    (h : (p.left :: p.right :: q.left :: q.right :: ks).Nodup) :
    sortingSign (p.left :: p.right :: q.left :: q.right :: ks) =
      Sign.ofParity ([q.left, q.right].countP p.encloses) *
        Sign.ofParity (p.exchanges ks + q.exchanges ks) * sortingSign ks := by
  obtain ⟨hpl, h⟩ := List.nodup_cons.mp h
  obtain ⟨hpr, h⟩ := List.nodup_cons.mp h
  obtain ⟨hql, h⟩ := List.nodup_cons.mp h
  obtain ⟨hqr, _⟩ := List.nodup_cons.mp h
  have hsplit : p.exchanges (q.left :: q.right :: ks) =
      [q.left, q.right].countP p.encloses + p.exchanges ks := by
    simp only [Pair.exchanges, List.countP_cons, List.countP_nil]
    omega
  rw [sortingSign_cons_cons (fun hm => hpl (List.mem_cons_of_mem _ hm)) hpr,
    sortingSign_cons_cons (fun hm => hql (List.mem_cons_of_mem _ hm)) hqr, hsplit,
    Sign.ofParity_add, Sign.ofParity_add, Sign.mul_assoc, Sign.mul_assoc, Sign.mul_assoc]

/-- A pair in front of a list contributes its exchanges in any rearrangement of that list. -/
theorem sortingSign_pair_of_perm {p : Pair} {js ks : List Nat} (h : js.Perm ks)
    (hl : p.left ∉ ks) (hr : p.right ∉ ks) :
    sortingSign (p.left :: p.right :: js) = Sign.ofParity (p.exchanges ks) * sortingSign js := by
  rw [sortingSign_cons_cons (fun hm => hl (h.mem_iff.mp hm)) (fun hm => hr (h.mem_iff.mp hm)),
    Pair.exchanges_perm h]

/-- The order of the pairs does not change the sign of a listing. -/
theorem sortingSign_positions_perm {ps qs : List Pair} {ks : List Nat} (h : ps.Perm qs)
    (hnodup : (positions ps ++ ks).Nodup) :
    sortingSign (positions ps ++ ks) = sortingSign (positions qs ++ ks) := by
  -- Only the exchange of two neighbours changes single signs; their product stays because the two
  -- pairs cross each other or not.
  induction h with
  | nil => rfl
  | @cons p ps qs hperm ih =>
      obtain ⟨hl, hnodup⟩ := List.nodup_cons.mp hnodup
      obtain ⟨hr, hnodup⟩ := List.nodup_cons.mp hnodup
      have hrest : (positions ps ++ ks).Perm (positions qs ++ ks) :=
        (positions_perm hperm).append_right ks
      have hl : p.left ∉ positions ps ++ ks := fun hm => hl (List.mem_cons_of_mem _ hm)
      rw [positions, positions, List.cons_append, List.cons_append, List.cons_append,
        List.cons_append, sortingSign_cons_cons hl hr,
        sortingSign_pair_of_perm hrest.symm hl hr, ih hnodup]
  | swap p q ps =>
      have hnodup : (q.left :: q.right :: p.left :: p.right :: (positions ps ++ ks)).Nodup :=
        hnodup
      have hswapped : (p.left :: p.right :: q.left :: q.right :: (positions ps ++ ks)).Nodup :=
        ((positions_perm (List.Perm.swap p q ps)).append_right ks).nodup_iff.mp hnodup
      have hcross : ([p.left, p.right].countP q.encloses +
          [q.left, q.right].countP p.encloses) % 2 = 0 := by
        simp only [List.nodup_cons, List.mem_cons, not_or] at hnodup
        exact Pair.even_enclosed ⟨hnodup.1.2.1, hnodup.1.2.2.1⟩ ⟨hnodup.2.1.1, hnodup.2.1.2.1⟩
      show sortingSign (q.left :: q.right :: p.left :: p.right :: (positions ps ++ ks)) =
        sortingSign (p.left :: p.right :: q.left :: q.right :: (positions ps ++ ks))
      rw [sortingSign_two_pairs hnodup, sortingSign_two_pairs hswapped, Sign.ofParity_congr hcross,
        Nat.add_comm (q.exchanges _)]
  | trans h₁ _ ih₁ ih₂ =>
      rw [ih₁ hnodup, ih₂ (((positions_perm h₁).append_right ks).nodup_iff.mp hnodup)]

section Order

variable {M M' : Pattern}

theorem mem_positions_of_perm (h : M.pairs.Perm M'.pairs) (k : Nat) :
    k ∈ positions M.pairs ↔ k ∈ positions M'.pairs :=
  (positions_perm h).mem_iff

/-- Patterns with the same positions fit the same chains. -/
theorem Pattern.fits_congr (h : ∀ k, k ∈ positions M.pairs ↔ k ∈ positions M'.pairs) (n : Nat) :
    M.Fits n ↔ M'.Fits n :=
  forall_congr' fun k => by rw [h k]

/-- Patterns with the same positions leave the same operators. -/
theorem remaining_congr (h : ∀ k, k ∈ positions M.pairs ↔ k ∈ positions M'.pairs)
    (chain : List ChainOperator) : remaining chain M = remaining chain M' := by
  simp only [remaining, h]

theorem uncontracted_congr {ps qs : List Pair} (h : ∀ k, k ∈ positions ps ↔ k ∈ positions qs)
    (ks : List Nat) : uncontracted ks ps = uncontracted ks qs := by
  simp only [uncontracted, h]

theorem Pattern.contracts_perm (h : M.pairs.Perm M'.pairs) (chain : List ChainOperator) :
    M.contracts chain = M'.contracts chain := by
  rw [Bool.eq_iff_iff, contracts, contracts, List.all_eq_true, List.all_eq_true]
  exact forall_congr' fun p => by rw [h.mem_iff]

theorem nodup_wickOrder {chain : List ChainOperator} (h : M.contracts chain = true) :
    (wickOrder chain M).Nodup :=
  (wickOrder_perm h).nodup_iff.mpr (nodup_fermionPositions chain)

/-- The sign of a pattern does not depend on the order of its pairs. -/
theorem wickSign_perm (h : M.pairs.Perm M'.pairs) {chain : List ChainOperator}
    (hc : M.contracts chain = true) : wickSign chain M = wickSign chain M' := by
  have hfermionic : (M.pairs.filter (Pair.isFermionic chain)).Perm
      (M'.pairs.filter (Pair.isFermionic chain)) := h.filter _
  rw [wickSign, wickSign, wickOrder, wickOrder,
    sortingSign_positions_perm hfermionic (nodup_wickOrder hc),
    uncontracted_congr (mem_positions_of_perm h)]

namespace Word

variable {o : Options} {w : Word}

/-- The word that a contraction leaves depends on the positions that are used and on the tensors of
the pairs, in any order. -/
theorem contracted_congr (hpos : ∀ k, k ∈ positions M.pairs ↔ k ∈ positions M'.pairs)
    (htensors : (contractionTensors o.orthonormal w.chain M.pairs).Perm
      (contractionTensors o.orthonormal w.chain M'.pairs)) :
    w.contracted o M = w.contracted o M' := by
  refine normal_congr ?_ ?_
  · rw [cNumbers_contractedLetters, cNumbers_contractedLetters]
    exact htensors.append_left _
  · rw [operators_contractedLetters, operators_contractedLetters, remaining_congr hpos]

theorem contractionSign_eq_wickSign (hc : M.contracts w.chain = true) :
    w.contractionSign M = wickSign w.chain M :=
  linksSign_eq_wickSign hc

/-- The contraction of a word does not depend on the order of the pairs. -/
theorem contract_perm (h : M.pairs.Perm M'.pairs) (w : Word) :
    w.contract o M = w.contract o M' := by
  have htensors : (contractionTensors o.orthonormal w.chain M.pairs).Perm
      (contractionTensors o.orthonormal w.chain M'.pairs) := (h.filterMap _).filterMap _
  cases hc : M.contracts w.chain with
  | false =>
      have hc' := hc
      rw [Pattern.contracts_perm h] at hc'
      simp [contract, hc, hc']
  | true =>
      have hc' := hc
      rw [Pattern.contracts_perm h] at hc'
      rw [contract, contract, if_pos hc, if_pos hc', contractionSign_eq_wickSign hc,
        contractionSign_eq_wickSign hc', wickSign_perm h hc,
        contracted_congr (mem_positions_of_perm h) htensors]

end Word

/-- Everything a contraction reports is the same for every order of the pairs. -/
theorem contract_perm (o : Options) (h : M.pairs.Perm M'.pairs) (e : Expr) :
    Agree (· = ·) (contract o M e) (contract o M' e) := by
  refine (agree_contract (Pattern.fits_congr (mem_positions_of_perm h)) e).of_ok ?_
  intro x y hx hy
  obtain ⟨_, rfl⟩ := contract_eq_ok_iff.mp hx
  obtain ⟨_, rfl⟩ := contract_eq_ok_iff.mp hy
  simp only [WordSum.contract, Word.contract_perm h, Pattern.contracts_perm h]

end Order

/-! ## The orientation of the pairs -/

/-- The pair read the other way round. -/
def Pair.flip (p : Pair) : Pair :=
  ⟨p.right, p.left⟩

/-- The pair, turned around if it belongs to a set. -/
def Pair.orient (S : Pair → Bool) (p : Pair) : Pair :=
  if S p then p.flip else p

theorem Pair.orient_eq (S : Pair → Bool) (p : Pair) :
    p.orient S = p ∨ p.orient S = p.flip := by
  unfold orient
  split
  · exact .inr rfl
  · exact .inl rfl

theorem positions_orient_perm (S : Pair → Bool) (ps : List Pair) :
    (positions (ps.map (Pair.orient S))).Perm (positions ps) := by
  induction ps with
  | nil => exact List.Perm.nil
  | cons p ps ih =>
      rw [List.map_cons, positions, positions]
      rcases p.orient_eq S with h | h
      · rw [h]
        exact (ih.cons p.right).cons p.left
      · rw [h]
        exact ((ih.cons p.left).cons p.right).trans (List.Perm.swap _ _ _)

/-- The pattern with the pairs of a set turned around. -/
def Pattern.reorient (S : Pair → Bool) (M : Pattern) : Pattern :=
  ⟨M.pairs.map (Pair.orient S), (positions_orient_perm S M.pairs).nodup_iff.mpr M.nodup⟩

theorem mem_positions_reorient (S : Pair → Bool) (M : Pattern) (k : Nat) :
    k ∈ positions (M.reorient S).pairs ↔ k ∈ positions M.pairs :=
  (positions_orient_perm S M.pairs).mem_iff

/-- Whether a pair joins two fermions of a chain. -/
def Pair.joinsFermions (chain : List ChainOperator) (p : Pair) : Bool :=
  chain[p.left]?.any ChainOperator.isFermion && chain[p.right]?.any ChainOperator.isFermion

/-- The number of pairs of a set that join two fermions of a chain. -/
def Pattern.fermionicPairs (S : Pair → Bool) (chain : List ChainOperator) (M : Pattern) : Nat :=
  M.pairs.countP fun p => S p && p.joinsFermions chain

/-- Turning a pair around costs one exchange. -/
theorem Pair.even_exchanges_flip {p : Pair} (h : p.left ≠ p.right) (ks : List Nat) :
    (p.flip.exchanges ks + (1 + p.exchanges ks)) % 2 = 0 := by
  have hencloses : p.flip.encloses = p.encloses := by
    funext k
    rw [Bool.eq_iff_iff, Pair.encloses_iff, Pair.encloses_iff]
    exact or_comm
  have hflip : p.flip.isReversed = decide (p.left < p.right) := rfl
  have hp : p.isReversed = decide (p.right < p.left) := rfl
  simp only [Pair.exchanges, hencloses, hflip, hp, decide_eq_true_eq]
  split_ifs <;> omega

/-- Every pair that is turned around changes the sign of a listing. -/
theorem sortingSign_positions_orient (S : Pair → Bool) {ps : List Pair} {ks : List Nat}
    (hnodup : (positions ps ++ ks).Nodup) :
    sortingSign (positions (ps.map (Pair.orient S)) ++ ks) =
      Sign.ofParity (ps.countP S) * sortingSign (positions ps ++ ks) := by
  induction ps with
  | nil => rfl
  | cons p ps ih =>
      obtain ⟨hl, hnodup⟩ := List.nodup_cons.mp hnodup
      obtain ⟨hr, hnodup⟩ := List.nodup_cons.mp hnodup
      have hne : p.left ≠ p.right := fun h => hl (h ▸ List.mem_cons_self)
      have hl : p.left ∉ positions ps ++ ks := fun hm => hl (List.mem_cons_of_mem _ hm)
      have hrest : (positions (ps.map (Pair.orient S)) ++ ks).Perm (positions ps ++ ks) :=
        (positions_orient_perm S ps).append_right ks
      -- Either way round, the pair stands in front of the same positions.
      have hstep : ∀ q : Pair, q = p ∨ q = p.flip →
          sortingSign (q.left :: q.right :: (positions (ps.map (Pair.orient S)) ++ ks)) =
            Sign.ofParity (q.exchanges (positions ps ++ ks)) *
              (Sign.ofParity (ps.countP S) * sortingSign (positions ps ++ ks)) := by
        intro q hq
        rw [← ih hnodup]
        rcases hq with rfl | rfl
        · exact sortingSign_pair_of_perm hrest hl hr
        · exact sortingSign_pair_of_perm hrest hr hl
      show sortingSign ((p.orient S).left :: (p.orient S).right ::
          (positions (ps.map (Pair.orient S)) ++ ks)) =
        Sign.ofParity ((p :: ps).countP S) *
          sortingSign (p.left :: p.right :: (positions ps ++ ks))
      rw [hstep _ (p.orient_eq S), sortingSign_cons_cons hl hr, List.countP_cons]
      by_cases hS : S p = true
      · have hflip : p.orient S = p.flip := if_pos hS
        have hsign : Sign.ofParity (p.flip.exchanges (positions ps ++ ks)) =
            Sign.ofParity 1 * Sign.ofParity (p.exchanges (positions ps ++ ks)) := by
          rw [Sign.ofParity_congr (Pair.even_exchanges_flip hne _), Sign.ofParity_add]
        rw [hflip, if_pos hS, hsign, Sign.ofParity_add (ps.countP S)]
        simp only [Sign.mul_assoc, Sign.mul_left_comm]
      · have hkeep : p.orient S = p := if_neg hS
        rw [hkeep, if_neg hS, Nat.add_zero, Sign.mul_left_comm]

theorem ChainOperator.contracts_comm (l r : ChainOperator) : l.contracts r = r.contracts l := by
  rw [Bool.eq_iff_iff]
  simp only [ChainOperator.contracts, Bool.and_eq_true, beq_iff_eq, Action.eq_adjoint_iff,
    Space.meet?_comm l.index.space]
  constructor
  · rintro ⟨⟨hs, ha⟩, hm⟩
    exact ⟨⟨hs.symm, ha.symm⟩, hm⟩
  · rintro ⟨⟨hs, ha⟩, hm⟩
    exact ⟨⟨hs.symm, ha.symm⟩, hm⟩

theorem Tensor.between_comm (name : String) (i j : Index) :
    Tensor.between name i j = Tensor.between name j i := by
  unfold Tensor.between
  by_cases hij : (compare i j).isLE = true
  · by_cases hji : (compare j i).isLE = true
    · obtain rfl : i = j := Std.LawfulEqOrd.eq_of_compare (Std.OrientedCmp.isLE_antisymm hij hji)
      rfl
    · rw [if_pos hij, if_neg hji]
  · have hji : (compare j i).isLE = true :=
      Ordering.isLE_of_eq_lt (Std.OrientedCmp.lt_of_not_isLE hij)
    rw [if_neg hij, if_pos hji]

section Orientation

variable {chain : List ChainOperator} {M : Pattern} {S : Pair → Bool}

theorem Pair.contracts_flip (p : Pair) : p.flip.contracts chain = p.contracts chain := by
  unfold Pair.contracts Pair.flip
  cases hl : chain[p.left]? with
  | none => cases chain[p.right]? <;> rfl
  | some l =>
      cases hr : chain[p.right]? with
      | none => rfl
      | some r => exact ChainOperator.contracts_comm r l

/-- Turning pairs around keeps whatever does not distinguish a pair from its flip. -/
theorem Pair.orient_congr {α : Type} {f : Pair → α} (h : ∀ p : Pair, f p.flip = f p) (p : Pair) :
    f (p.orient S) = f p := by
  rcases p.orient_eq S with hp | hp
  · rw [hp]
  · rw [hp, h]

theorem Pattern.contracts_reorient : (M.reorient S).contracts chain = M.contracts chain := by
  show (M.pairs.map (Pair.orient S)).all (Pair.contracts chain) = M.pairs.all (Pair.contracts chain)
  rw [List.all_map]
  refine congrArg M.pairs.all (funext fun p => ?_)
  exact Pair.orient_congr (f := Pair.contracts chain) Pair.contracts_flip p

/-- The tensor of a pair of a chain. -/
def Pair.tensor? (orthonormal : Bool) (chain : List ChainOperator) (p : Pair) : Option Tensor :=
  (link? chain p).bind (Link.tensor? orthonormal)

theorem contractionTensors_eq (orthonormal : Bool) (ps : List Pair) :
    contractionTensors orthonormal chain ps = ps.filterMap (Pair.tensor? orthonormal chain) :=
  List.filterMap_filterMap

theorem Pair.tensor?_flip (orthonormal : Bool) (p : Pair) :
    p.flip.tensor? orthonormal chain = p.tensor? orthonormal chain := by
  unfold Pair.tensor? link? Pair.flip
  cases hl : chain[p.left]? with
  | none => cases chain[p.right]? <;> rfl
  | some l =>
      cases hr : chain[p.right]? with
      | none => rfl
      | some r =>
          simp only [Option.bind_some, Link.tensor?, Tensor.between_comm _ r.index]
          simp only [eq_comm]

/-- The pairs have the same tensors, whichever way round they are. -/
theorem contractionTensors_orient (orthonormal : Bool) (ps : List Pair) :
    contractionTensors orthonormal chain (ps.map (Pair.orient S)) =
      contractionTensors orthonormal chain ps := by
  rw [contractionTensors_eq, contractionTensors_eq, List.filterMap_map]
  refine List.filterMap_congr fun p _ => ?_
  exact Pair.orient_congr (f := Pair.tensor? orthonormal chain) (Pair.tensor?_flip orthonormal) p

/-- A contractible pair has a fermion on its left exactly when it joins two of them. -/
theorem Pair.joinsFermions_eq {p : Pair} (hp : p.contracts chain = true) :
    p.joinsFermions chain = p.isFermionic chain := by
  obtain ⟨l, r, hl, hr, hlr⟩ := Pair.contracts_iff.mp hp
  have hr' : l.isFermion = r.isFermion := ChainOperator.isFermion_eq_of_contracts hlr
  simp [Pair.joinsFermions, Pair.isFermionic, hl, hr, hr']

theorem Pair.isFermionic_flip {p : Pair} (hp : p.contracts chain = true) :
    p.flip.isFermionic chain = p.isFermionic chain := by
  obtain ⟨l, r, hl, hr, hlr⟩ := Pair.contracts_iff.mp hp
  have hr' : l.isFermion = r.isFermion := ChainOperator.isFermion_eq_of_contracts hlr
  simp [Pair.isFermionic, Pair.flip, hl, hr, hr']

theorem filter_isFermionic_orient (h : M.contracts chain = true) :
    (M.pairs.map (Pair.orient S)).filter (Pair.isFermionic chain) =
      (M.pairs.filter (Pair.isFermionic chain)).map (Pair.orient S) := by
  rw [List.filter_map]
  refine congrArg (List.map (Pair.orient S)) (List.filter_congr fun p hp => ?_)
  show (p.orient S).isFermionic chain = p.isFermionic chain
  rcases p.orient_eq S with hS | hS
  · rw [hS]
  · rw [hS, Pair.isFermionic_flip (forall_contracts h p hp)]

theorem countP_isFermionic (h : M.contracts chain = true) :
    (M.pairs.filter (Pair.isFermionic chain)).countP S = M.fermionicPairs S chain := by
  rw [List.countP_filter, Pattern.fermionicPairs]
  refine List.countP_congr fun p hp => ?_
  rw [Pair.joinsFermions_eq (forall_contracts h p hp)]

/-- Every fermionic pair that is turned around changes the sign of a pattern. -/
theorem wickSign_reorient (h : M.contracts chain = true) :
    wickSign chain (M.reorient S) =
      Sign.ofParity (M.fermionicPairs S chain) * wickSign chain M := by
  have horder : wickOrder chain (M.reorient S) =
      positions ((M.pairs.filter (Pair.isFermionic chain)).map (Pair.orient S)) ++
        uncontracted (fermionPositions chain) M.pairs := by
    rw [wickOrder, uncontracted_congr (mem_positions_reorient S M), ← filter_isFermionic_orient h]
    rfl
  rw [wickSign, horder, sortingSign_positions_orient S (nodup_wickOrder h), countP_isFermionic h]
  rfl

theorem Sign.toRat_ofParity (n : Nat) : (Sign.ofParity n).toRat = (-1 : ℚ) ^ n := by
  induction n with
  | zero => rfl
  | succ n ih => rw [Sign.toRat_ofParity_succ, ih, pow_succ, mul_neg_one]

/-- Turning pairs around multiplies the contraction of a word by -1 for each of them that joins
fermions. -/
theorem Word.contract_reorient (o : Options) (w : Word) :
    w.contract o (M.reorient S) =
      Combination.scale ((-1) ^ M.fermionicPairs S w.chain) (w.contract o M) := by
  have hcontracts : (M.reorient S).contracts w.chain = M.contracts w.chain :=
    Pattern.contracts_reorient
  rw [Word.contract, Word.contract, hcontracts]
  cases hc : M.contracts w.chain with
  | false => rfl
  | true =>
      have htensors : (contractionTensors o.orthonormal w.chain (M.reorient S).pairs).Perm
          (contractionTensors o.orthonormal w.chain M.pairs) := by
        rw [show (M.reorient S).pairs = M.pairs.map (Pair.orient S) from rfl,
          contractionTensors_orient]
      rw [if_pos rfl, if_pos rfl, contractionSign_eq_wickSign (hcontracts.trans hc),
        contractionSign_eq_wickSign hc, wickSign_reorient hc,
        contracted_congr (mem_positions_reorient S M) htensors, Sign.toRat_mul, Sign.toRat_ofParity]
      rfl

end Orientation

/-! ## Expressions -/

/-- An expression with a single term has a single word. -/
theorem Expr.words_of_terms {e : Expr} {t : Term} (h : e.canonical.terms = [t]) :
    ∃ w, e.words = [(t.1, w)] ∧ t.2.chainOperators = w.chain := by
  rw [terms_canonical] at h
  obtain ⟨s, hs, rfl⟩ := List.map_eq_singleton_iff.mp h
  exact ⟨s.2, hs, chainOperators_monomial s.2⟩

/-- Two single words with the same coefficient: a factor between their contractions is one between
the results. -/
theorem toExpr_contract_of_scale {o : Options} {M M' : Pattern} {e e' : Expr} {c s : ℚ}
    {w w' : Word} (h : e.words = [(c, w)]) (h' : e'.words = [(c, w')])
    (hs : w'.contract o M' = Combination.scale s (w.contract o M)) :
    (e'.words.contract o M').toExpr = s • (e.words.contract o M).toExpr := by
  have hvalue : ∀ (M : Pattern) {e : Expr} {w : Word}, e.words = [(c, w)] →
      (e.words.contract o M).toExpr.denote =
        c • WordSum.eval OperatorAlgebra.gen (w.contract o M) := by
    intro M e w h
    rw [denote_toExpr_contract, h, Combination.eval_cons, Combination.eval_nil, add_zero]
  refine Expr.eq_of_denote_eq (isCanonical_toExpr_contract o _ e')
    (Expr.isCanonical_smul _ (isCanonical_toExpr_contract o M e)) ?_
  rw [Expr.denote_smul, hvalue M' h', hvalue M h, hs, WordSum.eval, Combination.eval_scale,
    smul_comm]
  rfl

/-- Turning pairs around multiplies the result of a single term by -1 for each of them that joins
fermions, and changes nothing else. -/
theorem contract_reorient (o : Options) (M : Pattern) (S : Pair → Bool) {e : Expr} {t : Term}
    (h : e.canonical.terms = [t]) :
    Agree (fun x y => y = { x with
        result := (-1 : ℚ) ^ M.fermionicPairs S t.2.chainOperators • x.result })
      (contract o M e) (contract o (M.reorient S) e) := by
  have hpos : ∀ k, k ∈ positions M.pairs ↔ k ∈ positions (M.reorient S).pairs := fun k =>
    (mem_positions_reorient S M k).symm
  refine (agree_contract (Pattern.fits_congr hpos) e).of_ok ?_
  intro x y hx hy
  obtain ⟨_, rfl⟩ := contract_eq_ok_iff.mp hx
  obtain ⟨_, rfl⟩ := contract_eq_ok_iff.mp hy
  obtain ⟨w, hw, hchain⟩ := Expr.words_of_terms h
  rw [toExpr_contract_of_scale hw hw (w.contract_reorient o), hchain,
    (Expr.isLinear_finish o).map_smul _ (isCanonical_toExpr_contract o M e)]
  simp only [Pattern.contracts_reorient]

/-- **Order and orientation.**  Everything a contraction reports is the same for every order of the
pairs, errors included.  For a single term, turning pairs around multiplies the result by -1 for
each of them that joins two fermions of the term, and changes nothing else. -/
theorem contract_order_and_orientation (o : Options) (M : Pattern) (e : Expr) :
    (∀ M' : Pattern, M.pairs.Perm M'.pairs → Agree (· = ·) (contract o M e) (contract o M' e)) ∧
    ∀ (S : Pair → Bool) (t : Term), e.canonical.terms = [t] →
      Agree (fun x y => y = { x with
          result := (-1 : ℚ) ^ M.fermionicPairs S t.2.chainOperators • x.result })
        (contract o M e) (contract o (M.reorient S) e) :=
  ⟨fun _ h => contract_perm o h e, fun S _ h => contract_reorient o M S h⟩

/-- The crossed pairs in the other order. -/
def crossedBackwards : Pattern :=
  ⟨[⟨1, 3⟩, ⟨0, 2⟩], by decide⟩

/-- The set of the pair that starts a chain. -/
def atStart (p : Pair) : Bool :=
  p.left == 0

/-- The order of the crossed pairs does not matter, and turning one of them around takes their sign
away. -/
theorem contract_twoByTwo_reordered :
    contract { orthonormal := true, reduce := false } crossedBackwards twoByTwo =
        .ok crossedEvaluation ∧
      contract { orthonormal := true, reduce := false } (crossed.reorient atStart) twoByTwo =
        .ok { crossedEvaluation with
          result := (-1 : ℚ) ^ 1 • crossedEvaluation.result } := by
  obtain ⟨horder, horient⟩ :=
    contract_order_and_orientation { orthonormal := true, reduce := false } crossed twoByTwo
  have hterms : twoByTwo.canonical.terms = [(1, twoByTwo)] := by decide +kernel
  have hf : crossed.fermionicPairs atStart twoByTwo.chainOperators = 1 := by decide +kernel
  constructor
  · obtain ⟨y, hy, rfl⟩ := (horder crossedBackwards (List.Perm.swap _ _ _)).exists_ok
      contract_crossed
    exact hy
  · obtain ⟨y, hy, rfl⟩ := (horient atStart (1, twoByTwo) hterms).exists_ok contract_crossed
    rw [hy, hf]

end SecondQuant
