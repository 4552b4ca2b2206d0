import SecondQuant.Proofs.ContractedWord
import SecondQuant.Proofs.Permutation

/-!
# The sign of a list of exchanges

Contracting fermions pair by pair, each step counts the fermions that still stand between the two
operators.  All steps together give the sign of the permutation that lists the fermions pair by pair
in front of those that are left: a fermion that stands before both operators of a pair has to be
passed twice, one that stands between them once.

* `exchangeSign` — the sign of all steps, on the positions of the fermions alone.
* `exchangeSign_eq_sortingSign` — it is the sign of the listing.
* `exchangeSign_append`, `exchangeSign_relabel` — how it splits, and that it does not depend on how
  the positions are numbered.
* `linksSign_eq_exchangeSign` — the sign of the links of a pattern is that of its fermionic pairs.

Pairs only look at the two operators that they join.  Where another chain has the same operators at
new positions, the pairs that are moved there contract, contribute their tensors and join fermions
as they did.

* `FoundAt` — whether another chain has the operators of some pairs at new positions.
* `FoundAt.all_contracts`, `FoundAt.contractionTensors_eq`, `FoundAt.filter_isFermionic` — what the
  moved pairs do.
-/

namespace SecondQuant

/-! ## Exchanges among positions -/

/-- Whether a position lies strictly between those of a pair. -/
def Pair.encloses (p : Pair) (k : Nat) : Bool :=
  decide (p.low < k) && decide (k < p.high)

theorem Pair.encloses_iff {p : Pair} {k : Nat} :
    p.encloses k = true ↔ p.left < k ∧ k < p.right ∨ p.right < k ∧ k < p.left := by
  have hlow : p.low = min p.left p.right := rfl
  have hhigh : p.high = max p.left p.right := rfl
  rw [encloses, Bool.and_eq_true, decide_eq_true_eq, decide_eq_true_eq]
  omega

/-- The exchanges that bring a pair side by side among the fermions at given positions. -/
def Pair.exchanges (ks : List Nat) (p : Pair) : Nat :=
  ks.countP p.encloses + if p.isReversed then 1 else 0

/-- The sign of pairing fermions off one pair after the other; each pair takes its positions
away. -/
def exchangeSign (ks : List Nat) : List Pair → Sign
  | [] => .plus
  | p :: ps => Sign.ofParity (p.exchanges ks) * exchangeSign (uncontracted ks [p]) ps

/-- Two positions that are no members: those before either one are passed twice unless they are
between the two. -/
theorem countP_lt_add_countP_lt {p : Pair} {ks : List Nat} (hl : p.left ∉ ks)
    (hr : p.right ∉ ks) :
    (ks.countP fun k => decide (k < p.left)) + (ks.countP fun k => decide (k < p.right)) =
      ks.countP p.encloses + 2 * ks.countP fun k => decide (k < p.low) := by
  induction ks with
  | nil => rfl
  | cons k ks ih =>
      obtain ⟨hkl, hl⟩ := List.ne_and_not_mem_of_not_mem_cons hl
      obtain ⟨hkr, hr⟩ := List.ne_and_not_mem_of_not_mem_cons hr
      have hcount := ih hl hr
      have hlow : p.low = min p.left p.right := rfl
      simp only [List.countP_cons, Pair.encloses_iff, decide_eq_true_eq]
      split_ifs <;> omega

theorem compare_beq_gt (a b : Nat) : (compare a b == .gt) = decide (b < a) := by
  rw [Bool.eq_iff_iff, beq_iff_eq, decide_eq_true_eq, Nat.compare_eq_gt]

/-- Two positions in front of a list contribute the exchanges of the pair. -/
theorem sortingSign_cons_cons {p : Pair} {ks : List Nat} (hl : p.left ∉ ks) (hr : p.right ∉ ks) :
    sortingSign (p.left :: p.right :: ks) =
      Sign.ofParity (p.exchanges ks) * sortingSign ks := by
  have hcount := countP_lt_add_countP_lt hl hr
  have hparity : ∀ m n k : Nat, m = n + 2 * k → Sign.ofParity m = Sign.ofParity n := by
    rintro m n k rfl
    rw [Sign.ofParity_add, Sign.ofParity_of_even (Nat.mul_mod_right 2 k), Sign.mul_plus]
  rw [sortingSign_cons, sortingSign_cons, ← Sign.mul_assoc, ← Sign.ofParity_add, List.countP_cons]
  simp only [compare_beq_gt, decide_eq_true_eq]
  congr 1
  refine hparity _ _ (ks.countP fun k => decide (k < p.low)) ?_
  simp only [Pair.exchanges, Pair.isReversed, decide_eq_true_eq]
  split_ifs <;> omega

/-- A member that the pair takes away is counted by none of its exchanges. -/
theorem exchanges_uncontracted (ks : List Nat) (p : Pair) :
    p.exchanges (uncontracted ks [p]) = p.exchanges ks := by
  rw [Pair.exchanges, Pair.exchanges, uncontracted, List.countP_filter]
  congr 1
  apply List.countP_congr
  intro k _
  rw [Bool.and_eq_true, decide_eq_true_eq, mem_positions_singleton, Pair.encloses_iff]
  omega

/-! ## The sign of a listing -/

/-- Pairing positions off contributes the sign of the listing that starts with the pairs. -/
theorem exchangeSign_eq_sortingSign {ks : List Nat} {ps : List Pair}
    (hks : ks.Pairwise (· < ·)) (hps : (positions ps).Nodup)
    (hsub : ∀ k ∈ positions ps, k ∈ ks) :
    exchangeSign ks ps = sortingSign (positions ps ++ uncontracted ks ps) := by
  induction ps generalizing ks with
  | nil =>
      rw [exchangeSign, positions, List.nil_append, uncontracted_nil]
      refine (sortingSign_of_ascending (hks.imp fun h => ?_)).symm
      exact Ordering.isLE_of_eq_lt (Nat.compare_eq_lt.mpr h)
  | cons p ps ih =>
      obtain ⟨hl, hps⟩ := List.nodup_cons.mp hps
      obtain ⟨hr, hps⟩ := List.nodup_cons.mp hps
      obtain ⟨hpl, hsub⟩ := List.forall_mem_cons.mp hsub
      obtain ⟨hpr, hsub⟩ := List.forall_mem_cons.mp hsub
      have hks' : (uncontracted ks [p]).Pairwise (· < ·) := hks.filter _
      have hsub' : ∀ k ∈ positions ps, k ∈ uncontracted ks [p] := by
        intro k hk
        refine mem_uncontracted.mpr ⟨hsub k hk, fun h => ?_⟩
        rcases mem_positions_singleton.mp h with rfl | rfl
        · exact hl (List.mem_cons_of_mem _ hk)
        · exact hr hk
      have hperm := positions_append_uncontracted_perm (hks'.imp Nat.ne_of_lt) hps hsub'
      have hout : ∀ k ∈ positions [p], k ∉ positions ps ++ uncontracted (uncontracted ks [p]) ps :=
        fun k hk hmem => (mem_uncontracted.mp (hperm.mem_iff.mp hmem)).2 hk
      have hcount : p.exchanges (positions ps ++ uncontracted (uncontracted ks [p]) ps) =
          p.exchanges ks := by
        rw [← exchanges_uncontracted ks p, Pair.exchanges, Pair.exchanges, hperm.countP_eq]
      have hrest : uncontracted ks (p :: ps) = uncontracted (uncontracted ks [p]) ps :=
        (uncontracted_uncontracted ks [p] ps).symm
      rw [exchangeSign, ih hks' hps hsub', positions, List.cons_append, List.cons_append, hrest,
        sortingSign_cons_cons (hout _ (mem_positions_singleton.mpr (.inl rfl)))
          (hout _ (mem_positions_singleton.mpr (.inr rfl))), hcount]

/-- Of two pairs that cross one has to pass an operator of the other. -/
example : exchangeSign [0, 1, 2, 3] [⟨0, 2⟩, ⟨1, 3⟩] = .minus := by decide

/-- The first pairs contribute their sign, the others the sign among the positions that are
left. -/
theorem exchangeSign_append (ks : List Nat) (ps qs : List Pair) :
    exchangeSign ks (ps ++ qs) =
      exchangeSign ks ps * exchangeSign (uncontracted ks ps) qs := by
  induction ps generalizing ks with
  | nil => rw [List.nil_append, exchangeSign, uncontracted_nil, Sign.plus_mul]
  | cons p ps ih =>
      rw [List.cons_append, exchangeSign, ih, exchangeSign, Sign.mul_assoc,
        uncontracted_uncontracted, List.singleton_append]

/-! ## Renumbered positions -/

section Relabel

variable {f : Nat → Nat} {s : Nat → Prop}

theorem exchanges_relabel (hf : KeepsOrder f s) {ks : List Nat} {p : Pair}
    (hks : ∀ k ∈ ks, s k) (hl : s p.left) (hr : s p.right) :
    (p.relabel f).exchanges (ks.map f) = p.exchanges ks := by
  have hencloses : ∀ k ∈ ks, ((p.relabel f).encloses ∘ f) k = true ↔ p.encloses k = true := by
    intro k hk
    have hsk := hks k hk
    rw [Function.comp, Pair.encloses_iff, Pair.encloses_iff, Pair.relabel, hf _ _ hl hsk,
      hf _ _ hsk hr, hf _ _ hr hsk, hf _ _ hsk hl]
  have hreversed : (p.relabel f).isReversed = p.isReversed :=
    Bool.eq_iff_iff.mpr <| by
      rw [Pair.isReversed, Pair.isReversed, decide_eq_true_eq, decide_eq_true_eq]
      exact hf _ _ hr hl
  rw [Pair.exchanges, Pair.exchanges, List.countP_map, List.countP_congr hencloses, hreversed]

/-- Renumbering positions in their order keeps the sign of the exchanges. -/
theorem exchangeSign_relabel (hf : KeepsOrder f s) {ks : List Nat} {ps : List Pair}
    (hks : ∀ k ∈ ks, s k) (hps : ∀ k ∈ positions ps, s k) :
    exchangeSign (ks.map f) (ps.map (Pair.relabel f)) = exchangeSign ks ps := by
  induction ps generalizing ks with
  | nil => rfl
  | cons p ps ih =>
      obtain ⟨hl, hps⟩ := List.forall_mem_cons.mp hps
      obtain ⟨hr, hps⟩ := List.forall_mem_cons.mp hps
      have hp : ∀ k ∈ positions [p], s k := fun k hk =>
        (mem_positions_singleton.mp hk).elim (fun h => h ▸ hl) (fun h => h ▸ hr)
      have hleft : uncontracted (ks.map f) [p.relabel f] = (uncontracted ks [p]).map f :=
        uncontracted_relabel hf hks hp
      rw [List.map_cons, exchangeSign, exchanges_relabel hf hks hl hr, hleft,
        ih (fun k hk => hks k (mem_uncontracted.mp hk).1) hps, exchangeSign]

end Relabel

/-! ## Fermions of a chain -/

/-- The positions of the fermions among operators of a chain. -/
def Live.fermions (live : Live) : List Nat :=
  (live.filter fun o => o.1.isFermion).map Prod.snd

namespace Live

theorem mem_fermions {live : Live} {k : Nat} :
    k ∈ live.fermions ↔ ∃ o, (o, k) ∈ live ∧ o.isFermion = true := by
  simp only [fermions, List.mem_map, List.mem_filter, Prod.exists, exists_eq_right]

theorem exchanges_eq (live : Live) (p : Pair) : live.exchanges p = p.exchanges live.fermions := by
  rw [exchanges, Pair.exchanges, fermionsWithin, fermions, List.countP_map, List.countP_filter]
  congr 1
  apply List.countP_congr
  intro o _
  rw [Function.comp, Pair.encloses, Bool.and_assoc, Bool.and_comm]

theorem fermions_filter (live : Live) (ps : List Pair) :
    Live.fermions (live.filter fun o => decide (o.2 ∉ positions ps)) =
      uncontracted live.fermions ps := by
  rw [fermions, fermions, uncontracted, List.filter_map, List.filter_filter, List.filter_filter]
  congr 1
  exact List.filter_congr fun o _ => Bool.and_comm _ _

theorem fermions_without (live : Live) (p : Pair) :
    (live.without p).fermions = uncontracted live.fermions [p] := by
  have h : live.without p = live.filter fun o => decide (o.2 ∉ positions [p]) :=
    foldl_without live [p]
  rw [h, fermions_filter]

end Live

/-- Whether the left operator of a pair is a fermion. -/
def Pair.isFermionic (chain : List ChainOperator) (p : Pair) : Bool :=
  chain[p.left]?.any ChainOperator.isFermion

theorem Pair.contracts_iff {chain : List ChainOperator} {p : Pair} :
    p.contracts chain = true ↔
      ∃ l r, chain[p.left]? = some l ∧ chain[p.right]? = some r ∧ l.contracts r = true := by
  unfold contracts
  cases chain[p.left]? <;> cases chain[p.right]? <;> simp

theorem ChainOperator.isFermion_eq_of_contracts {l r : ChainOperator}
    (h : l.contracts r = true) : l.isFermion = r.isFermion := by
  simp only [contracts, Bool.and_eq_true, beq_iff_eq] at h
  rw [isFermion, isFermion, h.1.1]

/-- The sign of the links of a pattern is that of its fermionic pairs among the fermions. -/
theorem linksSign_eq_exchangeSign {chain : List ChainOperator} {live : Live} {ps : List Pair}
    (hlive : ∀ o ∈ live, chain[o.2]? = some o.1) (hps : ∀ p ∈ ps, p.contracts chain = true) :
    linksSign live (links chain ps) =
      exchangeSign live.fermions (ps.filter (Pair.isFermionic chain)) := by
  induction ps generalizing live with
  | nil => rfl
  | cons p ps ih =>
      obtain ⟨hp, hps⟩ := List.forall_mem_cons.mp hps
      obtain ⟨l, r, hl, hr, hlr⟩ := Pair.contracts_iff.mp hp
      have hlink : link? chain p = some ⟨p, l, r⟩ := by rw [link?, hl, hr]
      have hfermionic : p.isFermionic chain = l.isFermion := by
        rw [Pair.isFermionic, hl, Option.any_some]
      have hlive' : ∀ o ∈ live.without p, chain[o.2]? = some o.1 := fun o ho =>
        hlive o (List.mem_filter.mp ho).1
      have hrest := ih hlive' hps
      rw [Live.fermions_without] at hrest
      rw [links_cons hlink, linksSign, Link.sign, hrest]
      cases hf : l.isFermion with
      | true =>
          rw [List.filter_cons_of_pos (hfermionic.trans hf), exchangeSign, Live.exchanges_eq,
            if_pos rfl]
      | false =>
          -- no position of a bosonic pair is that of a fermion
          have hboson : ∀ k ∈ positions [p], k ∉ live.fermions := by
            intro k hk hmem
            obtain ⟨o, ho, hof⟩ := Live.mem_fermions.mp hmem
            have hchain := hlive _ ho
            rcases mem_positions_singleton.mp hk with rfl | rfl
            · rw [Option.some.inj (hl.symm.trans hchain), hof] at hf
              cases hf
            · have hrf := ChainOperator.isFermion_eq_of_contracts hlr
              rw [hf, Option.some.inj (hr.symm.trans hchain), hof] at hrf
              cases hrf
          have hleft : uncontracted live.fermions [p] = live.fermions :=
            List.filter_eq_self.mpr fun k hk => decide_eq_true fun h => hboson k h hk
          rw [List.filter_cons_of_neg (by rw [hfermionic, hf]; exact Bool.false_ne_true), hleft,
            if_neg Bool.false_ne_true, Sign.plus_mul]

/-! ## Pairs at new positions -/

/-- Whether a chain has at new positions what another one has at the positions of some pairs. -/
def FoundAt (f : Nat → Nat) (chain chain' : List ChainOperator) (ps : List Pair) : Prop :=
  ∀ k ∈ positions ps, chain'[f k]? = chain[k]?

section Moved

variable {f : Nat → Nat} {chain chain' : List ChainOperator} {ps : List Pair}

/-- The two operators of a moved pair. -/
theorem FoundAt.getElem? (h : FoundAt f chain chain' ps) {p : Pair} (hp : p ∈ ps) :
    chain'[(p.relabel f).left]? = chain[p.left]? ∧
      chain'[(p.relabel f).right]? = chain[p.right]? :=
  ⟨h p.left (mem_positions.mpr ⟨p, hp, .inl rfl⟩), h p.right (mem_positions.mpr ⟨p, hp, .inr rfl⟩)⟩

theorem FoundAt.all_contracts (h : FoundAt f chain chain' ps) :
    (ps.map (Pair.relabel f)).all (Pair.contracts chain') = ps.all (Pair.contracts chain) := by
  have hpair : ∀ p ∈ ps, (p.relabel f).contracts chain' = p.contracts chain := by
    intro p hp
    obtain ⟨hl, hr⟩ := h.getElem? hp
    rw [Pair.contracts, Pair.contracts, hl, hr]
  rw [List.all_map, Bool.eq_iff_iff, List.all_eq_true, List.all_eq_true]
  exact forall₂_congr fun p hp => by rw [Function.comp, hpair p hp]

theorem FoundAt.contractionTensors_eq (h : FoundAt f chain chain' ps) (orthonormal : Bool) :
    contractionTensors orthonormal chain' (ps.map (Pair.relabel f)) =
      contractionTensors orthonormal chain ps := by
  have hlink : ∀ p ∈ ps, (link? chain' (p.relabel f)).bind (Link.tensor? orthonormal) =
      (link? chain p).bind (Link.tensor? orthonormal) := by
    intro p hp
    obtain ⟨hl, hr⟩ := h.getElem? hp
    rw [link?, link?, hl, hr]
    cases chain[p.left]? <;> cases chain[p.right]? <;> rfl
  simp only [contractionTensors, links, List.filterMap_filterMap]
  rw [List.filterMap_map]
  exact List.filterMap_congr hlink

theorem FoundAt.filter_isFermionic (h : FoundAt f chain chain' ps) :
    (ps.map (Pair.relabel f)).filter (Pair.isFermionic chain') =
      (ps.filter (Pair.isFermionic chain)).map (Pair.relabel f) := by
  rw [List.filter_map]
  refine congrArg _ (List.filter_congr ?_)
  intro p hp
  rw [Function.comp, Pair.isFermionic, (h.getElem? hp).1, Pair.isFermionic]

end Moved

end SecondQuant
