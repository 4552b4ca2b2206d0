import SecondQuant.Proofs.Readings

/-!
# Screening and single runs

The screening moves a set of occupations through the operators of a term, all readings at once.
Here a single run is written down by itself: every operator on a general index is read in one way,
the operators act one after the other, each of them adds one quantum or removes one, and a run ends
where there is nothing to remove.  The screening finds an occupation exactly when some run ends in
it.

* `Side`, `Ladder.change?`, `Change.result?` — one operator, read in one way.
* `follow`, `HasPath` — one run, and whether there is one between two occupations.
* `exists_readings_iff`, `mem_reach_iff_hasPath` — one step of the screening, and all of them.
* `Expr.screening_paths` — screening by rank asks for a run.
-/

namespace SecondQuant

/-! ## One operator -/

/-- The ways to read a general index. -/
inductive Side where
  | occupied
  | virtual
  deriving DecidableEq

/-- The space that an index is read in; only the general space leaves a choice. -/
def Side.read : Side → Space → Space
  | .occupied, .general => .occupied
  | .virtual, .general => .virtual
  | _, s => s

/-- What an operator does to one of the counts. -/
inductive Change where
  | adds (q : Quantum)
  | removes (q : Quantum)
  deriving DecidableEq

/-- What an elementary operator does in a space.  A boson counts as a photon whatever its index, and
a fermion has no photon states. -/
def Ladder.change? : Ladder → Space → Option Change
  | ⟨.boson, .creation⟩, _ => some (.adds .photon)
  | ⟨.boson, .annihilation⟩, _ => some (.removes .photon)
  | ⟨.fermion, .creation⟩, .virtual => some (.adds .particle)
  | ⟨.fermion, .annihilation⟩, .virtual => some (.removes .particle)
  | ⟨.fermion, .annihilation⟩, .occupied => some (.adds .hole)
  | ⟨.fermion, .creation⟩, .occupied => some (.removes .hole)
  | ⟨.fermion, _⟩, _ => none

/-- The occupation with another number of quanta of a kind. -/
def Occupation.setCount (o : Occupation) : Quantum → Nat → Occupation
  | .hole, n => { o with holes := n }
  | .particle, n => { o with particles := n }
  | .photon, n => { o with photons := n }

/-- The occupation after a change; nothing is removed from a count of zero. -/
def Change.result? (o : Occupation) : Change → Option Occupation
  | .adds q => some (o.setCount q (o.count q + 1))
  | .removes q => if o.count q = 0 then none else some (o.setCount q (o.count q - 1))

/-- The occupation after an operator whose index is read in one way, if the operator is well
formed. -/
def Tensor.step? (t : Tensor) (side : Side) (o : Occupation) : Option Occupation := do
  let (l, i) ← t.elementary?
  let c ← l.change? (side.read i.space)
  c.result? o

/-! ## Runs -/

/-- The occupation after a list of operators with the ways to read them; the last operator acts
first. -/
def follow : List (Tensor × Side) → Occupation → Option Occupation
  | [], start => some start
  | (t, side) :: run, start => (follow run start).bind (t.step? side)

/-- Whether the operators of a list can be read so that they lead from one occupation to another. -/
def HasPath (ts : List Tensor) (start final : Occupation) : Prop :=
  ∃ run : List (Tensor × Side), run.map Prod.fst = ts ∧ follow run start = some final

theorem hasPath_nil {start final : Occupation} : HasPath [] start final ↔ start = final := by
  simp [HasPath, follow]

/-- The operator at the head of a list makes the last step. -/
theorem hasPath_cons {t : Tensor} {ts : List Tensor} {start final : Occupation} :
    HasPath (t :: ts) start final ↔
      ∃ mid, HasPath ts start mid ∧ ∃ side, t.step? side mid = some final := by
  constructor
  · rintro ⟨run, hrun, h⟩
    obtain ⟨⟨_, side⟩, run, rfl, rfl, rfl⟩ := List.map_eq_cons_iff.mp hrun
    obtain ⟨mid, hmid, hstep⟩ := Option.bind_eq_some_iff.mp h
    exact ⟨mid, ⟨run, rfl, hmid⟩, side, hstep⟩
  · rintro ⟨mid, ⟨run, rfl, hmid⟩, side, hstep⟩
    exact ⟨(t, side) :: run, rfl, Option.bind_eq_some_iff.mpr ⟨mid, hmid, hstep⟩⟩

/-! ## One step of the screening -/

/-- The maker of a kind adds a quantum of it. -/
theorem act_maker (q : Quantum) (o : Occupation) :
    act q.maker q o = (Change.adds q).result? o := by
  cases q <;> rfl

/-- The adjoint of the maker removes one, if there is one. -/
theorem act_adjoint_maker (q : Quantum) (o : Occupation) :
    act q.maker.adjoint q o = (Change.removes q).result? o := by
  have hpred : act q.maker.adjoint q o = (pred? (o.count q)).map (o.setCount q) := by
    cases q <;> rfl
  rw [hpred, Change.result?]
  cases o.count q with
  | zero => rfl
  | succ n => rfl

theorem exists_side {P : Side → Prop} : (∃ side, P side) ↔ P .occupied ∨ P .virtual := by
  constructor
  · rintro ⟨_ | _, h⟩
    · exact .inl h
    · exact .inr h
  · rintro (h | h)
    · exact ⟨_, h⟩
    · exact ⟨_, h⟩

/-- A reading of an elementary operator is its change for one way to read its index. -/
theorem exists_ladderReadings_iff {l : Ladder} {s : Space} {o p : Occupation} :
    (∃ f ∈ ladderReadings l s, f o = some p) ↔
      ∃ side : Side, ∃ c, l.change? (side.read s) = some c ∧ c.result? o = some p := by
  rw [exists_side]
  obtain ⟨_ | _, _ | _⟩ := l <;> cases s <;>
    simp [ladderReadings, Ladder.change?, Side.read, ← act_maker, ← act_adjoint_maker,
      Quantum.maker, Action.adjoint, act]

/-- One step of the screening is a step of a run. -/
theorem exists_readings_iff {t : Tensor} {o p : Occupation} :
    (∃ f ∈ readings t, f o = some p) ↔ ∃ side, t.step? side o = some p := by
  rw [readings]
  cases ht : t.elementary? with
  | none => simp [Tensor.step?, ht]
  | some x =>
      refine exists_ladderReadings_iff.trans (exists_congr fun side => ?_)
      rw [Tensor.step?, ht]
      exact Option.bind_eq_some_iff.symm

/-- The occupations that the screening finds are the ends of runs. -/
theorem mem_reach_iff_hasPath {ts : List Tensor} {start final : Occupation} :
    final ∈ reach ts start ↔ HasPath ts start final := by
  induction ts generalizing final with
  | nil => rw [hasPath_nil, reach, List.mem_singleton, eq_comm]
  | cons t ts ih =>
      simp only [mem_reach_cons_iff, hasPath_cons, ih, exists_readings_iff]

/-! ## Operators that stop every run -/

/-- Whether an operator is malformed or acts with a fermion on a photon mode. -/
def Tensor.IsStray (t : Tensor) : Prop :=
  t.elementary? = none ∨
    ∃ a i, t.elementary? = some (⟨.fermion, a⟩, i) ∧ i.space = .photon

theorem Tensor.IsStray.step?_eq_none {t : Tensor} (h : t.IsStray) (side : Side) (o : Occupation) :
    t.step? side o = none := by
  rcases h with h | ⟨a, ⟨_, n, x⟩, h, rfl⟩
  · simp [step?, h]
  · cases a <;> cases side <;> simp [step?, h, Side.read, Ladder.change?]

/-- There is no run through such an operator. -/
theorem not_hasPath_of_isStray {t : Tensor} (ht : t.IsStray) {ts : List Tensor} (hmem : t ∈ ts)
    {start final : Occupation} : ¬HasPath ts start final := by
  induction ts generalizing final with
  | nil => cases hmem
  | cons u ts ih =>
      rw [hasPath_cons]
      rintro ⟨mid, hmid, side, hstep⟩
      rcases List.mem_cons.mp hmem with rfl | hmem
      · rw [ht.step?_eq_none] at hstep
        cases hstep
      · exact ih hmem hmid

/-! ## Screening -/

namespace Expr

/-- **Screening asks for a run.**  An expression makes a determinant of a rank out of the reference
exactly when the operators of some term, with a way to read each general index, lead there one by
one, and it brings the determinant back exactly when they lead from there to the reference.  No run
passes a malformed operator or a fermion on a photon mode. -/
theorem screening_paths :
    (∀ (e : Expr) (k : Nat), e.raisesTo k = true ↔
      ∃ t ∈ e.terms, HasPath t.2.operators .reference (.determinant k)) ∧
    (∀ (e : Expr) (k : Nat), e.lowersFrom k = true ↔
      ∃ t ∈ e.terms, HasPath t.2.operators (.determinant k) .reference) ∧
    ∀ (e : Expr), ∀ t ∈ e.terms, (∃ x ∈ t.2.operators, x.IsStray) →
      ∀ start final, ¬HasPath t.2.operators start final := by
  refine ⟨fun e k => ?_, fun e k => ?_, ?_⟩
  · simp only [raisesTo, List.any_eq_true, connects_iff, mem_reach_iff_hasPath]
  · simp only [lowersFrom, List.any_eq_true, connects_iff, mem_reach_iff_hasPath]
  · rintro e t _ ⟨x, hx, hstray⟩ start final
    exact not_hasPath_of_isStray hstray hx

/-- Scattering between general states, beside an operator with two indices and a fermion on a photon
mode. -/
def strayOperators : Expr :=
  .sum [(1, .prod [.tensor (.cNumber "f" [.dummy .general 1] [.dummy .general 2] .plain),
      .creation .fermion (.dummy .general 1), .annihilation .fermion (.dummy .general 2)]),
    (1, .tensor ⟨"a", [], [.dummy .virtual 1, .dummy .virtual 2], .plain,
      some ⟨.fermion, .creation⟩⟩),
    (1, .prod [.creation .boson (.dummy .photon 1), .annihilation .fermion (.dummy .photon 1)])]

/-- Rank 1 is made and brought back by scattering alone: nothing leads through the other two
terms. -/
theorem screening_paths_strayOperators :
    (∃ t ∈ strayOperators.terms, HasPath t.2.operators .reference (.determinant 1)) ∧
      (∃ t ∈ strayOperators.terms, HasPath t.2.operators (.determinant 1) .reference) ∧
      (∀ t ∈ strayOperators.terms.tail, ∀ start final, ¬HasPath t.2.operators start final) := by
  obtain ⟨hraises, hlowers, hstray⟩ := screening_paths
  refine ⟨(hraises _ _).mp (by decide +kernel), (hlowers _ _).mp (by decide +kernel), ?_⟩
  intro t ht
  refine hstray _ t (List.mem_of_mem_tail ht) ?_
  rcases List.mem_cons.mp ht with rfl | ht
  · exact ⟨_, List.mem_cons_self, .inl rfl⟩
  · rw [List.mem_singleton.mp ht]
    exact ⟨_, List.mem_cons_of_mem _ List.mem_cons_self, .inr ⟨_, _, rfl, rfl⟩⟩

end Expr

end SecondQuant
