import SecondQuant.Proofs.PairOrder
import SecondQuant.Proofs.Readings

/-!
# Full contractions of a chain

A chain is fully contracted when its operators are paired so that in each pair the left one takes
away the quantum that the right one makes.  Such a pairing exists exactly when the chain leads from
the reference back to it.  Both directions follow the chain from right to left: what has been made
and not taken away yet waits at its position, and each operator either joins those that wait or is
paired with one of them.

* `ChainOperator.Undoes`, `Pattern.IsFullContraction` — pairs of operators, and full contractions.
* `PairedFrom` — a partial pairing of the operators from a position on.
* `PairedFrom.wait`, `PairedFrom.pair`, `PairedFrom.first_cases` — one more operator, in both
  directions; `PairedFrom.act` and `PairedFrom.exists_act` follow its action.
* `leads_drop_iff` — the occupations that a part of a chain leads to count what waits.
* `exists_isFullContraction_iff` — full contractions are runs from the reference to itself.
-/

namespace SecondQuant

/-! ## Pairs of operators -/

namespace ChainOperator

/-- Whether the index of the operator may be read as a state of the space. -/
def ReadsAs (o : ChainOperator) (s : Space) : Prop :=
  o.index.space = s ∨ o.index.space = .general

instance (o : ChainOperator) (s : Space) : Decidable (o.ReadsAs s) :=
  inferInstanceAs (Decidable (_ ∨ _))

/-- Whether the left operator takes away the quantum that the right one makes: two bosons that
annihilate and create, or two fermions that do so on virtual states, or create and annihilate on
occupied ones. -/
def Undoes (l r : ChainOperator) : Prop :=
  (l.ladder = ⟨.boson, .annihilation⟩ ∧ r.ladder = ⟨.boson, .creation⟩) ∨
  (l.ladder = ⟨.fermion, .annihilation⟩ ∧ r.ladder = ⟨.fermion, .creation⟩ ∧
    l.ReadsAs .virtual ∧ r.ReadsAs .virtual) ∨
  (l.ladder = ⟨.fermion, .creation⟩ ∧ r.ladder = ⟨.fermion, .annihilation⟩ ∧
    l.ReadsAs .occupied ∧ r.ReadsAs .occupied)

instance (l r : ChainOperator) : Decidable (l.Undoes r) :=
  inferInstanceAs (Decidable (_ ∨ _ ∨ _))

/-- Whether the operator may make a quantum of the kind. -/
def Makes (o : ChainOperator) (q : Quantum) : Prop :=
  q ∈ o.quanta ∧ o.ladder.action = q.maker

/-- Whether the operator may take a quantum of the kind away. -/
def Takes (o : ChainOperator) (q : Quantum) : Prop :=
  q ∈ o.quanta ∧ o.ladder.action = q.maker.adjoint

theorem makes_iff {o : ChainOperator} {q : Quantum} :
    o.Makes q ↔
      match q with
      | .hole => o.ladder = ⟨.fermion, .annihilation⟩ ∧ o.ReadsAs .occupied
      | .particle => o.ladder = ⟨.fermion, .creation⟩ ∧ o.ReadsAs .virtual
      | .photon => o.ladder = ⟨.boson, .creation⟩ := by
  obtain ⟨_, ⟨s, a⟩, ⟨space, _, _⟩⟩ := o
  cases q <;> cases s <;> cases a <;> cases space <;>
    simp [Makes, quanta, ReadsAs, Quantum.maker]

theorem takes_iff {o : ChainOperator} {q : Quantum} :
    o.Takes q ↔
      match q with
      | .hole => o.ladder = ⟨.fermion, .creation⟩ ∧ o.ReadsAs .occupied
      | .particle => o.ladder = ⟨.fermion, .annihilation⟩ ∧ o.ReadsAs .virtual
      | .photon => o.ladder = ⟨.boson, .annihilation⟩ := by
  obtain ⟨_, ⟨s, a⟩, ⟨space, _, _⟩⟩ := o
  cases q <;> cases s <;> cases a <;> cases space <;>
    simp [Takes, quanta, ReadsAs, Quantum.maker, Action.adjoint]

/-- Two operators are a pair when there is a kind of quantum that the right one makes and the left
one takes away. -/
theorem undoes_iff {l r : ChainOperator} : l.Undoes r ↔ ∃ q, l.Takes q ∧ r.Makes q := by
  simp only [takes_iff, makes_iff]
  constructor
  · rintro (⟨hl, hr⟩ | ⟨hl, hr, hls, hrs⟩ | ⟨hl, hr, hls, hrs⟩)
    · exact ⟨.photon, hl, hr⟩
    · exact ⟨.particle, ⟨hl, hls⟩, hr, hrs⟩
    · exact ⟨.hole, ⟨hl, hls⟩, hr, hrs⟩
  · rintro ⟨q, hl, hr⟩
    cases q with
    | photon => exact .inl ⟨hl, hr⟩
    | particle => exact .inr (.inl ⟨hl.1, hr.1, hl.2, hr.2⟩)
    | hole => exact .inr (.inr ⟨hl.1, hr.1, hl.2, hr.2⟩)

end ChainOperator

/-- Whether the pair is written from left to right and its left operator takes away what the right
one makes. -/
def Pair.Closes (chain : List ChainOperator) (p : Pair) : Prop :=
  p.left < p.right ∧ ∃ l r, chain[p.left]? = some l ∧ chain[p.right]? = some r ∧ l.Undoes r

/-- Whether the pattern pairs all operators of a chain, each pair closing. -/
structure Pattern.IsFullContraction (chain : List ChainOperator) (M : Pattern) : Prop where
  covers : ∀ k, k ∈ positions M.pairs ↔ k < chain.length
  closes : ∀ p ∈ M.pairs, p.Closes chain

/-! ## Partial pairings -/

/-- The operators of a chain from position `i` on, each of them in a pair or waiting with the kind
of quantum that it has made. -/
structure PairedFrom (chain : List ChainOperator) (i : Nat) (ps : List Pair)
    (waiting : List (Nat × Quantum)) : Prop where
  covers : (positions ps ++ waiting.map Prod.fst).Perm (List.range' i (chain.length - i))
  closes : ∀ p ∈ ps, p.Closes chain
  makes : ∀ u ∈ waiting, ∃ o, chain[u.1]? = some o ∧ o.Makes u.2

/-- Whether an occupation counts the quanta that wait. -/
def Counts (o : Occupation) (waiting : List (Nat × Quantum)) : Prop :=
  ∀ q, o.count q = (waiting.map Prod.snd).count q

theorem counts_cons {o p : Occupation} {k : Nat} {q : Quantum} {waiting : List (Nat × Quantum)}
    (h : Counts o waiting) :
    Counts p ((k, q) :: waiting) ↔ ∀ r, p.count r = o.count r + q.single r := by
  refine forall_congr' fun r => ?_
  rw [List.map_cons, List.count_cons, h r, Quantum.single]
  simp only [beq_iff_eq, eq_comm (a := q)]

theorem counts_of_cons {o p : Occupation} {k : Nat} {q : Quantum}
    {waiting : List (Nat × Quantum)} (h : Counts p ((k, q) :: waiting))
    (hp : ∀ r, p.count r = o.count r + q.single r) : Counts o waiting := by
  intro r
  have hcount := h r
  rw [hp r, List.map_cons, List.count_cons, Quantum.single] at hcount
  simp only [beq_iff_eq, eq_comm (a := q)] at hcount
  omega

theorem exists_counts (waiting : List (Nat × Quantum)) : ∃ o, Counts o waiting := by
  refine ⟨⟨(waiting.map Prod.snd).count .hole, (waiting.map Prod.snd).count .particle,
    (waiting.map Prod.snd).count .photon⟩, ?_⟩
  intro q
  cases q <;> rfl

theorem counts_perm {o : Occupation} {us vs : List (Nat × Quantum)} (h : us.Perm vs) :
    Counts o us ↔ Counts o vs := by
  refine forall_congr' fun q => ?_
  rw [(h.map Prod.snd).count_eq]

namespace PairedFrom

variable {chain : List ChainOperator} {i k : Nat} {ps qs : List Pair} {q : Quantum}
  {waiting others : List (Nat × Quantum)} {o : ChainOperator}

/-- Neither the order of the pairs nor that of the waiting operators matters. -/
theorem perm (h : PairedFrom chain i ps waiting) (hps : ps.Perm qs)
    (hwaiting : waiting.Perm others) : PairedFrom chain i qs others where
  covers := ((positions_perm hps).symm.append (hwaiting.map Prod.fst).symm).trans h.covers
  closes p hp := h.closes p (hps.mem_iff.mpr hp)
  makes u hu := h.makes u (hwaiting.mem_iff.mpr hu)

theorem range'_eq_cons (h : i < chain.length) :
    List.range' i (chain.length - i) = i :: List.range' (i + 1) (chain.length - (i + 1)) := by
  have hlength : chain.length - i = chain.length - (i + 1) + 1 := by omega
  rw [hlength, List.range'_succ]

/-- An operator that makes a quantum may wait. -/
theorem wait (h : PairedFrom chain (i + 1) ps waiting) (ho : chain[i]? = some o)
    (hq : o.Makes q) : PairedFrom chain i ps ((i, q) :: waiting) where
  covers := by
    rw [range'_eq_cons (List.getElem?_eq_some_iff.mp ho).1, List.map_cons]
    exact List.perm_middle.trans (h.covers.cons i)
  closes := h.closes
  makes := List.forall_mem_cons.mpr ⟨⟨o, ho, hq⟩, h.makes⟩

/-- An operator that takes a quantum away is paired with one that waits. -/
theorem pair (h : PairedFrom chain (i + 1) ps ((k, q) :: waiting)) (ho : chain[i]? = some o)
    (hq : o.Takes q) : PairedFrom chain i (⟨i, k⟩ :: ps) waiting where
  covers := by
    rw [range'_eq_cons (List.getElem?_eq_some_iff.mp ho).1, positions, List.cons_append,
      List.cons_append]
    exact (List.perm_middle.symm.trans h.covers).cons i
  closes := by
    obtain ⟨r, hr, hmakes⟩ := h.makes (k, q) List.mem_cons_self
    have hk : k ∈ List.range' (i + 1) (chain.length - (i + 1)) :=
      h.covers.subset (by simp)
    have hlt : i < k := (List.mem_range'_1.mp hk).1
    refine List.forall_mem_cons.mpr ⟨⟨hlt, o, r, ho, hr, ?_⟩, h.closes⟩
    exact ChainOperator.undoes_iff.mpr ⟨q, hq, hmakes⟩
  makes := fun u hu => h.makes u (List.mem_cons_of_mem _ hu)

/-- Without the first operator the others that wait still do. -/
theorem of_wait (h : PairedFrom chain i ps ((i, q) :: waiting)) (hi : i < chain.length) :
    PairedFrom chain (i + 1) ps waiting where
  covers := by
    have hcovers := h.covers
    rw [range'_eq_cons hi, List.map_cons] at hcovers
    exact (List.perm_middle.symm.trans hcovers).cons_inv
  closes := h.closes
  makes := fun u hu => h.makes u (List.mem_cons_of_mem _ hu)

/-- Without the first operator the one that it is paired with waits. -/
theorem of_pair (h : PairedFrom chain i (⟨i, k⟩ :: ps) waiting) (hi : i < chain.length)
    {r : ChainOperator} (hr : chain[k]? = some r) (hq : r.Makes q) :
    PairedFrom chain (i + 1) ps ((k, q) :: waiting) where
  covers := by
    have hcovers := h.covers
    rw [range'_eq_cons hi, positions, List.cons_append, List.cons_append] at hcovers
    exact List.perm_middle.trans hcovers.cons_inv
  closes := fun p hp => h.closes p (List.mem_cons_of_mem _ hp)
  makes := List.forall_mem_cons.mpr ⟨⟨r, hr, hq⟩, h.makes⟩

/-- The first operator waits, or it is the left one of a pair. -/
theorem first_cases (h : PairedFrom chain i ps waiting) (ho : chain[i]? = some o) :
    (∃ q others, o.Makes q ∧ waiting.Perm ((i, q) :: others) ∧
      PairedFrom chain (i + 1) ps others) ∨
    ∃ k q qs, o.Takes q ∧ PairedFrom chain (i + 1) qs ((k, q) :: waiting) := by
  have hi : i < chain.length := (List.getElem?_eq_some_iff.mp ho).1
  have hrange : ∀ k ∈ positions ps ++ waiting.map Prod.fst, i ≤ k := fun k hk =>
    (List.mem_range'_1.mp (h.covers.subset hk)).1
  have hmem : i ∈ positions ps ++ waiting.map Prod.fst := by
    apply h.covers.symm.subset
    rw [range'_eq_cons hi]
    exact List.mem_cons_self
  rcases List.mem_append.mp hmem with hmem | hmem
  · right
    obtain ⟨⟨left, k⟩, hp, hleft⟩ := mem_positions.mp hmem
    obtain ⟨hlt, l, r, hl, hr, hundoes⟩ := h.closes _ hp
    -- Nothing stands before position `i`, so the pair cannot have it on its right.
    have hge : i ≤ left := hrange left
      (List.mem_append_left _ (mem_positions.mpr ⟨_, hp, .inl rfl⟩))
    obtain rfl : i = left := by
      simp only at hlt hleft
      omega
    obtain rfl : l = o := Option.some.inj (hl.symm.trans ho)
    obtain ⟨q, htakes, hmakes⟩ := ChainOperator.undoes_iff.mp hundoes
    have hfirst := h.perm (List.perm_cons_erase hp) (List.Perm.refl _)
    exact ⟨k, q, _, htakes, hfirst.of_pair hi hr hmakes⟩
  · left
    obtain ⟨⟨k, q⟩, hu, rfl⟩ := List.mem_map.mp hmem
    obtain ⟨r, hr, hmakes⟩ := h.makes _ hu
    obtain rfl : r = o := Option.some.inj (hr.symm.trans ho)
    have hfirst := h.perm (List.Perm.refl _) (List.perm_cons_erase hu)
    exact ⟨q, _, hmakes, List.perm_cons_erase hu, hfirst.of_wait hi⟩

/-- An operator that acts on an occupation either waits or is paired, so that the occupation it
leads to counts what waits then. -/
theorem act {mid final : Occupation} (h : PairedFrom chain (i + 1) ps waiting)
    (ho : chain[i]? = some o) (hcounts : Counts mid waiting) (hq : q ∈ o.quanta)
    (hact : SecondQuant.act o.ladder.action q mid = some final) :
    ∃ ps waiting, PairedFrom chain i ps waiting ∧ Counts final waiting := by
  rcases eq_maker_or_eq_adjoint o.ladder.action q with hmaker | hmaker
  · rw [hmaker, act_maker_iff] at hact
    have hfinal : Counts final ((i, q) :: waiting) := (counts_cons hcounts).mpr hact
    exact ⟨ps, (i, q) :: waiting, h.wait ho ⟨hq, hmaker⟩, hfinal⟩
  · rw [hmaker, act_adjoint_maker_iff] at hact
    have hpos : 0 < (waiting.map Prod.snd).count q := by
      rw [← hcounts q, hact q, Quantum.single, if_pos rfl]
      omega
    obtain ⟨⟨k, q⟩, hu, rfl⟩ := List.mem_map.mp (List.count_pos_iff.mp hpos)
    have hperm := List.perm_cons_erase hu
    have hpaired := (h.perm (List.Perm.refl ps) hperm).pair ho ⟨hq, hmaker⟩
    have hfinal := counts_of_cons ((counts_perm hperm).mp hcounts) hact
    exact ⟨⟨i, k⟩ :: ps, _, hpaired, hfinal⟩

/-- Conversely, the first operator of a partial pairing acts on the occupation that counts what
waits without it. -/
theorem exists_act {final : Occupation} (h : PairedFrom chain i ps waiting)
    (ho : chain[i]? = some o) (hcounts : Counts final waiting) :
    ∃ mid qs others q, PairedFrom chain (i + 1) qs others ∧ Counts mid others ∧ q ∈ o.quanta ∧
      SecondQuant.act o.ladder.action q mid = some final := by
  rcases h.first_cases ho with ⟨q, others, hmakes, hperm, hrest⟩ | ⟨k, q, qs, htakes, hrest⟩
  · obtain ⟨mid, hmid⟩ := exists_counts others
    refine ⟨mid, ps, others, q, hrest, hmid, hmakes.1, ?_⟩
    rw [hmakes.2, act_maker_iff]
    exact (counts_cons hmid).mp ((counts_perm hperm).mp hcounts)
  · obtain ⟨mid, hmid⟩ := exists_counts ((k, q) :: waiting)
    refine ⟨mid, qs, (k, q) :: waiting, q, hrest, hmid, htakes.1, ?_⟩
    rw [htakes.2, act_adjoint_maker_iff]
    exact (counts_cons hcounts).mp hmid

end PairedFrom

/-! ## Runs and pairings -/

section Runs

variable {chain : List ChainOperator}

/-- Behind the last operator nothing is paired and nothing waits. -/
theorem pairedFrom_length_iff {ps : List Pair} {waiting : List (Nat × Quantum)} :
    PairedFrom chain chain.length ps waiting ↔ ps = [] ∧ waiting = [] := by
  constructor
  · intro h
    have hnil := h.covers
    rw [Nat.sub_self, List.range'_zero, List.perm_nil, List.append_eq_nil_iff,
      List.map_eq_nil_iff] at hnil
    cases ps with
    | nil => exact ⟨rfl, hnil.2⟩
    | cons p ps => exact nomatch hnil.1
  · rintro ⟨rfl, rfl⟩
    exact ⟨by simp [positions], List.forall_mem_nil _, List.forall_mem_nil _⟩

/-- The occupations that the operators from a position on lead to count what waits in a partial
pairing of these operators. -/
theorem leads_drop_iff {i d : Nat} (hd : i + d = chain.length) {final : Occupation} :
    Leads (chain.drop i) .reference final ↔
      ∃ ps waiting, PairedFrom chain i ps waiting ∧ Counts final waiting := by
  induction d generalizing i final with
  | zero =>
      obtain rfl : i = chain.length := by omega
      rw [List.drop_length, Leads]
      simp only [pairedFrom_length_iff]
      constructor
      · rintro rfl
        exact ⟨[], [], ⟨rfl, rfl⟩, fun q => Occupation.count_reference q⟩
      · rintro ⟨ps, waiting, ⟨rfl, rfl⟩, hcounts⟩
        exact Occupation.eq_of_count fun q => (hcounts q).trans (Occupation.count_reference q).symm
  | succ d ih =>
      have hi : i < chain.length := by omega
      have ho : chain[i]? = some chain[i] := List.getElem?_eq_getElem hi
      rw [List.drop_eq_getElem_cons hi, Leads]
      simp only [ih (i := i + 1) (by omega)]
      constructor
      · rintro ⟨mid, ⟨ps, waiting, hpaired, hcounts⟩, q, hq, hact⟩
        exact hpaired.act ho hcounts hq hact
      · rintro ⟨ps, waiting, hpaired, hcounts⟩
        obtain ⟨mid, qs, others, q, hrest, hmid, hq, hact⟩ := hpaired.exists_act ho hcounts
        exact ⟨mid, ⟨qs, others, hrest, hmid⟩, q, hq, hact⟩

/-- A partial pairing of a whole chain in which nothing waits is a full contraction. -/
theorem exists_isFullContraction_iff_pairedFrom :
    (∃ M : Pattern, M.IsFullContraction chain) ↔ ∃ ps, PairedFrom chain 0 ps [] := by
  constructor
  · rintro ⟨M, hM⟩
    refine ⟨M.pairs, ?_, hM.closes, List.forall_mem_nil _⟩
    rw [List.map_nil, List.append_nil, List.perm_ext_iff_of_nodup M.nodup List.nodup_range']
    intro k
    rw [hM.covers, List.mem_range'_1]
    omega
  · rintro ⟨ps, h⟩
    have hcovers := h.covers
    rw [List.map_nil, List.append_nil] at hcovers
    refine ⟨⟨ps, hcovers.nodup_iff.mpr List.nodup_range'⟩, ?_, h.closes⟩
    intro k
    rw [hcovers.mem_iff, List.mem_range'_1]
    omega

/-- A chain can be fully contracted exactly when it leads from the reference back to it. -/
theorem exists_isFullContraction_iff :
    (∃ M : Pattern, M.IsFullContraction chain) ↔ Leads chain .reference .reference := by
  have hleads : Leads (chain.drop 0) .reference .reference ↔
      ∃ ps waiting, PairedFrom chain 0 ps waiting ∧ Counts .reference waiting :=
    leads_drop_iff (Nat.zero_add _)
  rw [List.drop_zero] at hleads
  rw [hleads, exists_isFullContraction_iff_pairedFrom]
  constructor
  · rintro ⟨ps, h⟩
    exact ⟨ps, [], h, fun q => Occupation.count_reference q⟩
  · rintro ⟨ps, waiting, h, hcounts⟩
    -- A quantum that waits would be counted, and the reference counts none.
    have hnone : waiting = [] := by
      refine List.eq_nil_iff_forall_not_mem.mpr fun u hu => ?_
      have hpos : 0 < (waiting.map Prod.snd).count u.2 :=
        List.count_pos_iff.mpr (List.mem_map_of_mem hu)
      rw [← hcounts u.2, Occupation.count_reference] at hpos
      exact absurd hpos (Nat.lt_irrefl 0)
    exact ⟨ps, hnone ▸ h⟩

end Runs

end SecondQuant
