import SecondQuant.Rank.Counters
import SecondQuant.Proofs.Readings

/-!
# Where the counters hold all counts

An operator raises one count by one, or lowers one.  So a count is at most what it was at the start
and the operators that may raise it, and a list of fewer than `2 ^ 32` operators never outgrows a
counter when it starts from the reference.  There the screening answers as it would with unbounded
counts.

* `counts_of_act` — an action shifts one count.
* `counts_le_of_mem_reach`, `staysInRange_of_counts` — **what a counter must have room for**.
* `Expr.raisesTo32_eq`, `Expr.lowersFrom32_eq` — the questions about a rank as unbounded counts
  answer them.
-/

namespace SecondQuant

/-! ## One action -/

/-- What an action adds to the charge. -/
def Action.gain : Action → ℤ
  | .creation => 1
  | .annihilation => -1

/-- What an action on a kind of quantum adds to the holes. -/
def Action.holeShift (a : Action) (q : Quantum) : ℤ :=
  if q = .hole then -a.gain else 0

/-- An action shifts the count of its kind: a creation fills a hole, makes a particle or makes a
photon, and an annihilation does the opposite. -/
theorem counts_of_act {a : Action} {q : Quantum} {o p : Occupation} (h : act a q o = some p) :
    (p.holes : ℤ) = o.holes + a.holeShift q ∧
      (p.particles : ℤ) = o.particles + (if q = .particle then a.gain else 0) ∧
      (p.photons : ℤ) = o.photons + (if q = .photon then a.gain else 0) := by
  unfold Action.holeShift
  rcases eq_maker_or_eq_adjoint a q with rfl | rfl
  · have hcount := act_maker_iff.mp h
    have hholes := hcount .hole
    have hparticles := hcount .particle
    have hphotons := hcount .photon
    cases q <;> simp_all [Occupation.count, Quantum.single, Quantum.maker, Action.gain]
  · have hcount := act_adjoint_maker_iff.mp h
    have hholes := hcount .hole
    have hparticles := hcount .particle
    have hphotons := hcount .photon
    cases q <;>
      simp_all [Occupation.count, Quantum.single, Quantum.maker, Action.adjoint, Action.gain]

/-- Bosons act on photons and fermions do not. -/
theorem ChainOperator.eq_photon_iff_of_mem_quanta {o : ChainOperator} {q : Quantum}
    (h : q ∈ o.quanta) : q = .photon ↔ o.ladder.statistics = .boson := by
  obtain ⟨source, ⟨s, a⟩, ⟨space, n, external⟩⟩ := o
  cases s with
  | boson => simp_all [quanta]
  | fermion => cases space <;> cases q <;> simp_all [quanta]

/-- An operator raises a count by at most one, and only operators of one tag raise it. -/
theorem counts_le_of_act {x : ChainOperator} {q : Quantum} (hq : q ∈ x.quanta) {o p : Occupation}
    (h : act x.ladder.action q o = some p) :
    p.holes ≤ o.holes + (if x.ladder = ⟨.fermion, .annihilation⟩ then 1 else 0) ∧
      p.particles ≤ o.particles + (if x.ladder = ⟨.fermion, .creation⟩ then 1 else 0) ∧
      p.photons ≤ o.photons + (if x.ladder = ⟨.boson, .creation⟩ then 1 else 0) := by
  have hcounts := counts_of_act h
  have hphoton := ChainOperator.eq_photon_iff_of_mem_quanta hq
  rcases hl : x.ladder with ⟨s, a⟩
  rw [hl] at hcounts hphoton
  cases s <;> cases a <;> cases q <;> simp_all [Action.holeShift, Action.gain] <;> omega

/-! ## Counting operators -/

/-- How many tensors of a list carry a ladder tag. -/
def tagCount (l : Ladder) (ts : List Tensor) : ℕ :=
  ts.countP fun t => t.ladder = some l

/-- One more operator counts for its own tag only. -/
theorem tagCount_cons {t : Tensor} {l : Ladder} (h : t.ladder = some l) (l' : Ladder)
    (ts : List Tensor) : tagCount l' (t :: ts) = tagCount l' ts + if l = l' then 1 else 0 := by
  simp [tagCount, List.countP_cons, h]

theorem tagCount_le_length (l : Ladder) (ts : List Tensor) : tagCount l ts ≤ ts.length :=
  List.countP_le_length

theorem tagCount_drop_le (l : Ladder) (ts : List Tensor) (n : ℕ) :
    tagCount l (ts.drop n) ≤ tagCount l ts :=
  (List.drop_sublist n ts).countP_le

/-! ## Room in the counters -/

/-- Each count is at most what it was at the start and the operators that may raise it. -/
theorem counts_le_of_mem_reach {ts : List Tensor} {start o : Occupation} (h : o ∈ reach ts start) :
    o.holes ≤ start.holes + tagCount ⟨.fermion, .annihilation⟩ ts ∧
      o.particles ≤ start.particles + tagCount ⟨.fermion, .creation⟩ ts ∧
      o.photons ≤ start.photons + tagCount ⟨.boson, .creation⟩ ts := by
  induction ts generalizing o with
  | nil =>
      obtain rfl := List.mem_singleton.mp h
      exact ⟨Nat.le_refl _, Nat.le_refl _, Nat.le_refl _⟩
  | cons t ts ih =>
      obtain ⟨f, hf, mid, hmid, hact⟩ := mem_reach_cons.mp h
      obtain ⟨x, hx, q, hq, rfl⟩ := exists_of_mem_readings hf
      have hstep := counts_le_of_act hq hact
      have ih := ih hmid
      simp only [tagCount_cons (ChainOperator.ladder_of_read? hx)]
      omega

/-- **What a counter must have room for.**  No run outgrows a counter when each has room for what it
starts with and for the operators that may raise it. -/
theorem staysInRange_of_counts {ts : List Tensor} {start : Occupation}
    (hholes : start.holes + tagCount ⟨.fermion, .annihilation⟩ ts < 2 ^ 32)
    (hparticles : start.particles + tagCount ⟨.fermion, .creation⟩ ts < 2 ^ 32)
    (hphotons : start.photons + tagCount ⟨.boson, .creation⟩ ts < 2 ^ 32) :
    StaysInRange ts start := by
  intro n o ho
  obtain ⟨hh, hp, hx⟩ := counts_le_of_mem_reach ho
  have hann := tagCount_drop_le ⟨.fermion, .annihilation⟩ ts n
  have hcre := tagCount_drop_le ⟨.fermion, .creation⟩ ts n
  have hphoton := tagCount_drop_le ⟨.boson, .creation⟩ ts n
  have hsize : UInt32.size = 2 ^ 32 := rfl
  exact ⟨by omega, by omega, by omega⟩

/-- There is room for a determinant when its rank and the number of operators fit in a counter. -/
theorem staysInRange_determinant {ts : List Tensor} {k : ℕ} (h : k + ts.length < 2 ^ 32) :
    StaysInRange ts (.determinant k) := by
  have hroom (l : Ladder) {n : ℕ} (hn : n ≤ k) : n + tagCount l ts < 2 ^ 32 :=
    lt_of_le_of_lt (Nat.add_le_add hn (tagCount_le_length l ts)) h
  exact staysInRange_of_counts (hroom _ le_rfl) (hroom _ le_rfl) (hroom _ (Nat.zero_le k))

/-! ## Screening -/

theorem connects32_eq {ts : List Tensor} {start final : Occupation32}
    (h : StaysInRange ts start.widen) :
    connects32 ts start final = connects ts start.widen final.widen := by
  rw [Bool.eq_iff_iff, connects32_iff, connects_iff, mem_reach32_iff h]

namespace Expr

/-- Terms of fewer than `2 ^ 32` operators make the ranks that they make with unbounded counts. -/
theorem raisesTo32_eq {e : Expr} (h : ∀ t ∈ e.terms, t.2.operators.length < 2 ^ 32) (k : UInt32) :
    e.raisesTo32 k = e.raisesTo k.toNat := by
  rw [Bool.eq_iff_iff, raisesTo32, raisesTo, List.any_eq_true, List.any_eq_true]
  refine exists_congr fun t => and_congr_right fun ht => ?_
  have hrange : StaysInRange t.2.operators (.determinant 0) :=
    staysInRange_determinant (by rw [Nat.zero_add]; exact h t ht)
  exact Bool.eq_iff_iff.mp (connects32_eq hrange)

/-- A rank is brought back as with unbounded counts when its sum with the number of operators fits
in a counter. -/
theorem lowersFrom32_eq {e : Expr} {k : UInt32}
    (h : ∀ t ∈ e.terms, k.toNat + t.2.operators.length < 2 ^ 32) :
    e.lowersFrom32 k = e.lowersFrom k.toNat := by
  rw [Bool.eq_iff_iff, lowersFrom32, lowersFrom, List.any_eq_true, List.any_eq_true]
  refine exists_congr fun t => and_congr_right fun ht => ?_
  exact Bool.eq_iff_iff.mp (connects32_eq (staysInRange_determinant (h t ht)))

end Expr

end SecondQuant
