import Mathlib.Data.Finset.Card
import Mathlib.Data.Int.ModEq
import Mathlib.Tactic.Linarith
import SecondQuant.Proofs.CounterRange

/-!
# The charge that the screening keeps

A fermion on an occupied state and one on a virtual state shift different counts, but both move the
difference of particles and holes by the same amount: a creation raises it by one, an annihilation
lowers it by one.  A counter that passes its end changes the difference by `2 ^ 32`.  So the set of
occupations that the screening follows lies on one line, read modulo `2 ^ 32`, and only an operator
on a general index widens the window in which its hole counts lie, by one.

* `Follows`, `Follows.of_mem_reach` — quantities that each operator of a statistics shifts alike;
  `charge_of_mem_reach` and `photons_of_mem_reach` are the two cases with unbounded counts.
* `Follows.modEq_of_mem_reach32` — what the counters keep of them.
* `exists_window` — the hole counts lie in a window as wide as there are general fermions.
* `screening_charge` — the balances, the linear bound on the set, and what a term needs in order to
  connect the reference with a determinant.
-/

namespace SecondQuant

/-! ## Counting operators -/

/-- The creations of a statistics less its annihilations. -/
def netCreations (s : Statistics) (ts : List Tensor) : ℤ :=
  tagCount ⟨s, .creation⟩ ts - tagCount ⟨s, .annihilation⟩ ts

/-- Whether a tensor is an elementary fermion operator on a general index. -/
def Tensor.isGeneralFermion (t : Tensor) : Bool :=
  match t.elementary? with
  | some (⟨.fermion, _⟩, i) => i.space = .general
  | _ => false

/-- Whether the creations and the annihilations of each statistics are as many. -/
def Balanced (ts : List Tensor) : Prop :=
  ∀ s : Statistics, tagCount ⟨s, .creation⟩ ts = tagCount ⟨s, .annihilation⟩ ts

instance (ts : List Tensor) : Decidable (Balanced ts) :=
  decidable_of_iff (∀ s ∈ [Statistics.fermion, Statistics.boson],
      tagCount ⟨s, .creation⟩ ts = tagCount ⟨s, .annihilation⟩ ts)
    ⟨fun h s => h s (by cases s <;> simp), fun h s _ => h s⟩

theorem netCreations_nil (s : Statistics) : netCreations s [] = 0 := rfl

/-- One more operator counts for its own statistics only. -/
theorem netCreations_cons {t : Tensor} {l : Ladder} (h : t.ladder = some l) (s : Statistics)
    (ts : List Tensor) :
    netCreations s (t :: ts) =
      netCreations s ts + if l.statistics = s then l.action.gain else 0 := by
  obtain ⟨s', a⟩ := l
  cases s <;> cases s' <;> cases a <;>
    simp [netCreations, tagCount, h, Action.gain] <;> ring

/-! ## Charge -/

/-- The particles less the holes. -/
def Occupation.charge (o : Occupation) : ℤ :=
  o.particles - o.holes

theorem charge_of_act {a : Action} {q : Quantum} {o p : Occupation} (h : act a q o = some p) :
    p.charge = o.charge + if q = .photon then 0 else a.gain := by
  obtain ⟨hholes, hparticles, -⟩ := counts_of_act h
  rw [Occupation.charge, Occupation.charge, hholes, hparticles, Action.holeShift]
  cases q <;> simp <;> ring

namespace ChainOperator

/-- The kinds that an operator may act on move the hole count within a window, which is a point
unless the operator is a fermion on a general index. -/
theorem exists_shift {t : Tensor} {o : ChainOperator} (h : read? t = some o) :
    ∃ d : ℤ, ∀ q ∈ o.quanta, d ≤ o.ladder.action.holeShift q ∧
      o.ladder.action.holeShift q ≤ d + (if t.isGeneralFermion then 1 else 0 : ℕ) := by
  obtain ⟨⟨⟨s, a⟩, ⟨space, n, external⟩⟩, ht, rfl⟩ := Option.map_eq_some_iff.mp h
  cases s with
  | boson => exact ⟨0, by simp [quanta, Action.holeShift, Tensor.isGeneralFermion, ht]⟩
  | fermion =>
      cases space with
      | occupied => exact ⟨-a.gain, by simp [quanta, Action.holeShift, Tensor.isGeneralFermion, ht]⟩
      | virtual => exact ⟨0, by simp [quanta, Action.holeShift, Tensor.isGeneralFermion, ht]⟩
      | photon => exact ⟨0, by simp [quanta]⟩
      | general =>
          -- One reading moves the hole count by `-a.gain`, the other one leaves it alone.
          exact ⟨min 0 (-a.gain), by
            cases a <;> simp [quanta, Action.holeShift, Action.gain, Tensor.isGeneralFermion, ht]⟩

end ChainOperator

/-! ## The balances of a run -/

/-- Whether a quantity follows a statistics: each operator of it adds its gain, whichever kind of
quantum it acts on, and the other operators add nothing. -/
def Follows (v : Occupation → ℤ) (s : Statistics) : Prop :=
  ∀ x : ChainOperator, ∀ q ∈ x.quanta, ∀ o p, act x.ladder.action q o = some p →
    v p = v o + if x.ladder.statistics = s then x.ladder.action.gain else 0

theorem follows_charge : Follows Occupation.charge .fermion := by
  intro x q hq o p hact
  rw [charge_of_act hact]
  simp only [ChainOperator.eq_photon_iff_of_mem_quanta hq]
  cases x.ladder.statistics <;> rfl

theorem follows_photons : Follows (fun o => o.photons) .boson := by
  intro x q hq o p hact
  simp only [(counts_of_act hact).2.2, ChainOperator.eq_photon_iff_of_mem_quanta hq]

section Counts

variable {ts : List Tensor} {start o : Occupation}

/-- Along a run a quantity grows by the creations of the statistics that it follows, less the
annihilations. -/
theorem Follows.of_mem_reach {v : Occupation → ℤ} {s : Statistics} (hv : Follows v s)
    (h : o ∈ reach ts start) : v o = v start + netCreations s ts := by
  induction ts generalizing o with
  | nil =>
      obtain rfl := List.mem_singleton.mp h
      rw [netCreations_nil, add_zero]
  | cons t ts ih =>
      obtain ⟨f, hf, mid, hmid, hact⟩ := mem_reach_cons.mp h
      obtain ⟨x, hx, q, hq, rfl⟩ := exists_of_mem_readings hf
      rw [hv x q hq mid o hact, ih hmid, netCreations_cons (ChainOperator.ladder_of_read? hx),
        add_assoc]

/-- **Charge along a run.**  It has grown by the fermions created less those annihilated. -/
theorem charge_of_mem_reach (h : o ∈ reach ts start) :
    o.charge = start.charge + netCreations .fermion ts :=
  follows_charge.of_mem_reach h

/-- **Photons along a run.**  They have grown by the bosons created less those annihilated. -/
theorem photons_of_mem_reach (h : o ∈ reach ts start) :
    (o.photons : ℤ) = start.photons + netCreations .boson ts :=
  follows_photons.of_mem_reach h

end Counts

/-! ## What the counters keep -/

/-- A counter keeps a number modulo `2 ^ 32`. -/
theorem toNat_ofNat_modEq (n : ℕ) : ((UInt32.ofNat n).toNat : ℤ) ≡ n [ZMOD 2 ^ 32] := by
  rw [UInt32.toNat_ofNat', Int.natCast_mod]
  exact Int.mod_modEq _ _

theorem Occupation.charge_narrow_modEq (o : Occupation) :
    o.narrow.widen.charge ≡ o.charge [ZMOD 2 ^ 32] :=
  (toNat_ofNat_modEq o.particles).sub (toNat_ofNat_modEq o.holes)

variable {ts : List Tensor} {start o : Occupation32}

/-- The counters keep what an operator adds to a quantity, modulo `2 ^ 32`. -/
theorem Follows.modEq_of_mem_reach32 {v : Occupation → ℤ} {s : Statistics} (hv : Follows v s)
    (hstored : ∀ o : Occupation, v o.narrow.widen ≡ v o [ZMOD 2 ^ 32]) (h : o ∈ reach32 ts start) :
    v o.widen ≡ v start.widen + netCreations s ts [ZMOD 2 ^ 32] := by
  induction ts generalizing o with
  | nil =>
      obtain rfl := List.mem_singleton.mp h
      rw [netCreations_nil, add_zero]
  | cons t ts ih =>
      obtain ⟨mid, hmid, f, hf, hstore⟩ := mem_reach32_cons.mp h
      obtain ⟨made, hact, rfl⟩ := stored_eq_some_iff.mp hstore
      obtain ⟨x, hx, q, hq, rfl⟩ := exists_of_mem_readings hf
      rw [netCreations_cons (ChainOperator.ladder_of_read? hx), ← add_assoc]
      refine (hstored made).trans ?_
      rw [hv x q hq mid.widen made hact]
      exact (ih hmid).add_right _

/-- **Charge along a run.**  It has grown by the fermions created less those annihilated, up to a
multiple of `2 ^ 32`. -/
theorem charge_of_mem_reach32 (h : o ∈ reach32 ts start) :
    o.widen.charge ≡ start.widen.charge + netCreations .fermion ts [ZMOD 2 ^ 32] :=
  follows_charge.modEq_of_mem_reach32 Occupation.charge_narrow_modEq h

/-- **Photons along a run.**  They have grown by the bosons created less those annihilated, up to a
multiple of `2 ^ 32`. -/
theorem photons_of_mem_reach32 (h : o ∈ reach32 ts start) :
    (o.widen.photons : ℤ) ≡ start.widen.photons + netCreations .boson ts [ZMOD 2 ^ 32] :=
  follows_photons.modEq_of_mem_reach32 (fun o => toNat_ofNat_modEq o.photons) h

/-! ## The size of the set -/

theorem nodup_reach32 (ts : List Tensor) (start : Occupation32) : (reach32 ts start).Nodup :=
  (strictlyAscending_reach32 ts start).imp fun {o p} hlt hop => by
    have hself : Occupation32.cmp o p = .eq := Std.LawfulEqCmp.compare_eq_iff_eq.mpr hop
    rw [hlt] at hself
    contradiction

/-- The hole counts lie in a window as wide as there are fermions on general indices. -/
theorem exists_window (ts : List Tensor) (start : Occupation32) :
    ∃ a : ℤ, ∀ o ∈ reach32 ts start, ∃ d ≤ ts.countP Tensor.isGeneralFermion,
      (o.widen.holes : ℤ) ≡ a + d [ZMOD 2 ^ 32] := by
  induction ts with
  | nil => exact ⟨start.widen.holes, by simp [reach32]⟩
  | cons t ts ih =>
      obtain ⟨a, ha⟩ := ih
      cases hx : ChainOperator.read? t with
      | none =>
          refine ⟨a, fun o ho => ?_⟩
          obtain ⟨-, -, f, hf, -⟩ := mem_reach32_cons.mp ho
          rw [readings_of_read?_eq_none hx] at hf
          exact absurd hf List.not_mem_nil
      | some x =>
          obtain ⟨b, hb⟩ := ChainOperator.exists_shift hx
          refine ⟨a + b, fun o ho => ?_⟩
          obtain ⟨mid, hmid, f, hf, hstore⟩ := mem_reach32_cons.mp ho
          obtain ⟨made, hact, rfl⟩ := stored_eq_some_iff.mp hstore
          rw [readings_eq hx] at hf
          obtain ⟨q, hq, rfl⟩ := List.mem_map.mp hf
          obtain ⟨d, hd, hmod⟩ := ha mid hmid
          obtain ⟨hlow, hhigh⟩ := hb q hq
          obtain ⟨e, he⟩ := Int.eq_ofNat_of_zero_le (sub_nonneg.mpr hlow)
          have hwithin : d + e ≤ (t :: ts).countP Tensor.isGeneralFermion := by
            rw [List.countP_cons]
            omega
          refine ⟨d + e, hwithin, (toNat_ofNat_modEq made.holes).trans ?_⟩
          have hshift : a + b + (d + e : ℕ) = a + d + x.ladder.action.holeShift q := by
            rw [Nat.cast_add, ← he]
            ring
          rw [(counts_of_act hact).1, hshift]
          exact hmod.add_right _

/-- Counters with equal charge, photons and holes, modulo `2 ^ 32`, are equal. -/
theorem Occupation32.eq_of_modEq {o p : Occupation32}
    (hcharge : o.widen.charge ≡ p.widen.charge [ZMOD 2 ^ 32])
    (hphotons : (o.widen.photons : ℤ) ≡ p.widen.photons [ZMOD 2 ^ 32])
    (hholes : (o.widen.holes : ℤ) ≡ p.widen.holes [ZMOD 2 ^ 32]) : o = p := by
  have hparticles := hcharge.add hholes
  simp only [Occupation.charge, sub_add_cancel] at hparticles
  have hrange {x y : UInt32} (h : (x.toNat : ℤ) ≡ y.toNat [ZMOD 2 ^ 32]) : x = y := by
    have hx := x.toNat_lt
    have hy := y.toNat_lt
    rw [Int.ModEq] at h
    exact UInt32.toNat_inj.mp (by omega)
  exact Occupation32.ext (hrange hholes) (hrange hparticles) (hrange hphotons)

/-- A set of occupations is at most one larger than its list has fermions on general indices. -/
theorem length_reach32_le (ts : List Tensor) (start : Occupation32) :
    (reach32 ts start).length ≤ 1 + ts.countP Tensor.isGeneralFermion := by
  obtain ⟨a, ha⟩ := exists_window ts start
  -- An occupation is known by the place of its hole count in the window.
  choose! place hplace hmod using ha
  rw [← List.toFinset_card_of_nodup (nodup_reach32 ts start)]
  calc (reach32 ts start).toFinset.card
      ≤ (Finset.range (1 + ts.countP Tensor.isGeneralFermion)).card := by
        refine Finset.card_le_card_of_injOn place ?_ ?_
        · intro o ho
          have hle := hplace o (List.mem_toFinset.mp ho)
          exact Finset.mem_coe.mpr (Finset.mem_range.mpr (by omega))
        · intro o ho p hp hsame
          have ho := List.mem_toFinset.mp ho
          have hp := List.mem_toFinset.mp hp
          have hholes := hmod o ho
          rw [hsame] at hholes
          exact Occupation32.eq_of_modEq
            ((charge_of_mem_reach32 ho).trans (charge_of_mem_reach32 hp).symm)
            ((photons_of_mem_reach32 ho).trans (photons_of_mem_reach32 hp).symm)
            (hholes.trans (hmod p hp).symm)
    _ = 1 + ts.countP Tensor.isGeneralFermion := Finset.card_range _

/-! ## Screening -/

/-- Whether the creations and the annihilations of each statistics are as many, up to a multiple of
`2 ^ 32`. -/
def BalancedModulo (ts : List Tensor) : Prop :=
  ∀ s : Statistics, netCreations s ts ≡ 0 [ZMOD 2 ^ 32]

/-- A run that changes neither charge nor photons has balanced operators. -/
theorem balancedModulo_of_mem_reach32 (h : o ∈ reach32 ts start)
    (hcharge : o.widen.charge = start.widen.charge) (hphotons : o.photons = start.photons) :
    BalancedModulo ts := by
  have hfermion := charge_of_mem_reach32 h
  have hboson := photons_of_mem_reach32 h
  rw [hcharge] at hfermion
  rw [Occupation32.widen, Occupation32.widen, hphotons] at hboson
  intro s
  cases s with
  | fermion => exact (Int.ModEq.add_left_cancel' _ (hfermion.symm.trans (by rw [add_zero])))
  | boson => exact (Int.ModEq.add_left_cancel' _ (hboson.symm.trans (by rw [add_zero])))

/-- A list of operators that connects the reference with a determinant is balanced. -/
theorem balancedModulo_of_connects32 {k : UInt32}
    (h : connects32 ts .reference (.determinant k) = true ∨
      connects32 ts (.determinant k) .reference = true) : BalancedModulo ts := by
  have hcharge : (Occupation32.determinant k).widen.charge = Occupation32.reference.widen.charge :=
    sub_self _
  rcases h with h | h
  · exact balancedModulo_of_mem_reach32 (connects32_iff.mp h) hcharge rfl
  · exact balancedModulo_of_mem_reach32 (connects32_iff.mp h) hcharge.symm rfl

/-- Fewer than `2 ^ 32` operators are balanced altogether. -/
theorem BalancedModulo.balanced (h : BalancedModulo ts) (hlength : ts.length < 2 ^ 32) :
    Balanced ts := by
  intro s
  have hmod := h s
  have hcreations := tagCount_le_length ⟨s, .creation⟩ ts
  have hannihilations := tagCount_le_length ⟨s, .annihilation⟩ ts
  rw [netCreations, Int.ModEq] at hmod
  omega

/-- A creation and an annihilation over general indices, after a photon has been made and taken
away. -/
def generalPair : List Tensor :=
  [.elementary ⟨.fermion, .creation⟩ (.dummy .general 1),
    .elementary ⟨.fermion, .annihilation⟩ (.dummy .general 2),
    .elementary ⟨.boson, .annihilation⟩ (.dummy .photon 1),
    .elementary ⟨.boson, .creation⟩ (.dummy .photon 2)]

end SecondQuant
