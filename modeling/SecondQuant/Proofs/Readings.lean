import SecondQuant.Rank
import SecondQuant.Proofs.OperatorChain

/-!
# Following a chain through its readings

The screening moves a set of occupations through the operators of a term.  This file says what it
follows: a chain of well-formed operators and, for each of them, one kind of quantum that it may act
on.  An operator makes a quantum of that kind or removes one, and it may not remove what is not
there.

* `Quantum`, `Quantum.maker` — the kinds of quantum, and the action that makes one.
* `act_maker_iff`, `act_adjoint_maker_iff` — acting shifts one count by one and leaves the others.
* `ChainOperator.quanta`, `readings_eq`, `exists_of_mem_readings` — the kinds that an operator may
  act on.
* `mem_reach_cons_iff` — the occupation before the last operator.
* `Leads`, `mem_reach_iff` — the occupations that are reached are those a chain leads to.
-/

namespace SecondQuant

/-! ## Kinds of quantum -/

/-- What an occupation counts. -/
inductive Quantum where
  | hole
  | particle
  | photon
  deriving DecidableEq

/-- The action that makes a quantum of the kind; its adjoint removes one. -/
def Quantum.maker : Quantum → Action
  | .hole => .annihilation
  | .particle => .creation
  | .photon => .creation

/-- The number of quanta of a kind. -/
def Occupation.count (o : Occupation) : Quantum → Nat
  | .hole => o.holes
  | .particle => o.particles
  | .photon => o.photons

@[simp] theorem Occupation.count_reference (q : Quantum) : Occupation.reference.count q = 0 := by
  cases q <;> rfl

theorem Occupation.eq_of_count {o p : Occupation} (h : ∀ q, o.count q = p.count q) : o = p := by
  have hholes := h .hole
  have hparticles := h .particle
  have hphotons := h .photon
  cases o
  cases p
  simp_all [Occupation.count]

/-- What an action does to the quanta of a kind. -/
def act (a : Action) : Quantum → Occupation → Option Occupation
  | .hole => actOccupied a
  | .particle => actVirtual a
  | .photon => actPhoton a

/-- The adjoint action leads back. -/
theorem act_adjoint_iff {a : Action} {q : Quantum} {o p : Occupation} :
    act a.adjoint q o = some p ↔ act a q p = some o := by
  obtain ⟨h, x, y⟩ := o
  obtain ⟨h', x', y'⟩ := p
  cases a <;> cases q <;>
    simp only [act, Action.adjoint, actOccupied, actVirtual, actPhoton, Option.map_eq_some_iff,
      pred?_eq_some, Option.some.injEq, Occupation.mk.injEq] <;> grind

/-- The number of quanta of a kind in a single quantum. -/
def Quantum.single (q r : Quantum) : Nat :=
  if r = q then 1 else 0

/-- The maker of a kind adds one quantum of that kind. -/
theorem act_maker_iff {q : Quantum} {o p : Occupation} :
    act q.maker q o = some p ↔ ∀ r, p.count r = o.count r + q.single r := by
  constructor
  · intro h r
    cases q <;> obtain rfl := Option.some.inj h <;> cases r <;> rfl
  · intro h
    have hp : ∀ {p' : Occupation}, (∀ r, p'.count r = o.count r + q.single r) → p' = p :=
      fun h' => Occupation.eq_of_count fun r => (h' r).trans (h r).symm
    cases q <;> exact congrArg some (hp fun r => by cases r <;> rfl)

/-- The adjoint of the maker takes one away, so there must have been one. -/
theorem act_adjoint_maker_iff {q : Quantum} {o p : Occupation} :
    act q.maker.adjoint q o = some p ↔ ∀ r, o.count r = p.count r + q.single r := by
  rw [act_adjoint_iff, act_maker_iff]

theorem eq_maker_or_eq_adjoint (a : Action) (q : Quantum) :
    a = q.maker ∨ a = q.maker.adjoint := by
  cases a <;> cases q <;> simp [Quantum.maker, Action.adjoint]

/-! ## Readings of an operator -/

/-- The kinds of quantum that an operator may act on: a boson acts on photons, and a fermion on what
its index allows. -/
def ChainOperator.quanta (o : ChainOperator) : List Quantum :=
  match o.ladder.statistics, o.index.space with
  | .boson, _ => [.photon]
  | .fermion, .occupied => [.hole]
  | .fermion, .virtual => [.particle]
  | .fermion, .general => [.hole, .particle]
  | .fermion, .photon => []

/-- The ways in which an operator acts are its action on the kinds it may act on. -/
theorem readings_eq {t : Tensor} {o : ChainOperator} (h : ChainOperator.read? t = some o) :
    readings t = o.quanta.map (act o.ladder.action) := by
  obtain ⟨⟨⟨s, a⟩, i⟩, ht, rfl⟩ := Option.map_eq_some_iff.mp h
  obtain ⟨space, _, _⟩ := i
  rw [readings, ht]
  cases s with
  | boson => rfl
  | fermion => cases space <;> rfl

theorem readings_of_read?_eq_none {t : Tensor} (h : ChainOperator.read? t = none) :
    readings t = [] := by
  rw [readings, Option.map_eq_none_iff.mp h]

/-- The readings of an operator are actions on the kinds of quantum of the chain operator it is
read as. -/
theorem exists_of_mem_readings {t : Tensor} {f : Occupation → Option Occupation}
    (h : f ∈ readings t) :
    ∃ o, ChainOperator.read? t = some o ∧ ∃ q ∈ o.quanta, f = act o.ladder.action q := by
  cases ho : ChainOperator.read? t with
  | none =>
      rw [readings_of_read?_eq_none ho] at h
      exact nomatch h
  | some o =>
      rw [readings_eq ho] at h
      obtain ⟨q, hq, rfl⟩ := List.mem_map.mp h
      exact ⟨o, rfl, q, hq, rfl⟩

/-! ## Runs of operators -/

/-- The last operator acts on an occupation that the others lead to. -/
theorem mem_reach_cons_iff {t : Tensor} {ts : List Tensor} {start final : Occupation} :
    final ∈ reach (t :: ts) start ↔
      ∃ mid ∈ reach ts start, ∃ f ∈ readings t, f mid = some final := by
  rw [mem_reach_cons]
  constructor
  · rintro ⟨f, hf, mid, hmid, h⟩
    exact ⟨mid, hmid, f, hf, h⟩
  · rintro ⟨mid, hmid, f, hf, h⟩
    exact ⟨f, hf, mid, hmid, h⟩

/-! ## Runs of a chain -/

/-- Whether a chain, acting from right to left, can lead from one occupation to another when each of
its operators acts on one of the kinds it may act on. -/
def Leads : List ChainOperator → Occupation → Occupation → Prop
  | [], start, final => final = start
  | o :: os, start, final =>
      ∃ mid, Leads os start mid ∧ ∃ q ∈ o.quanta, act o.ladder.action q mid = some final

/-- The occupations that a list of operators reaches are those that its chain leads to; all the
operators are well formed when there is one. -/
theorem mem_reach_iff {ts : List Tensor} {start final : Occupation} :
    final ∈ reach ts start ↔
      ∃ chain, ts.mapM ChainOperator.ofTensor = .ok chain ∧ Leads chain start final := by
  simp only [mapM_eq_ok_iff, ChainOperator.ofTensor_eq_ok_iff]
  induction ts generalizing final with
  | nil => simp [reach, Leads]
  | cons t ts ih =>
      simp only [mem_reach_cons, ih, List.forall₂_cons_left_iff]
      constructor
      · rintro ⟨f, hf, mid, ⟨chain, hchain, hmid⟩, hfinal⟩
        obtain ⟨o, ho, q, hq, rfl⟩ := exists_of_mem_readings hf
        exact ⟨o :: chain, ⟨o, chain, ho, hchain, rfl⟩, mid, hmid, q, hq, hfinal⟩
      · rintro ⟨_, ⟨o, chain, ho, hchain, rfl⟩, mid, hmid, q, hq, hfinal⟩
        refine ⟨_, ?_, mid, ⟨chain, hchain, hmid⟩, hfinal⟩
        rw [readings_eq ho]
        exact List.mem_map_of_mem hq

end SecondQuant
