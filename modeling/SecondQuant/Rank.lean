import SecondQuant.Expr
import SecondQuant.Sorting

/-!
# Screening by excitation rank

Before any contraction, counting holes, particles and photons tells which ranks an expression can
reach from the reference state or bring back to it.  The operators of a term act from right to
left; an operator on a general index may act on an occupied or on a virtual state, and both
readings are followed.

The counts of this file are natural numbers, without a bound.  The counters of the program have 32
bits and wrap around: `SecondQuant.Rank.Counters` stores in them what the operators make here.  The
two agree where no count outgrows its counter (`mem_reach32_iff`), so a term of fewer than `2 ^ 32`
operators makes the same ranks out of the reference (`Expr.raisesTo32_eq`).

* `Occupation` — the counts above the reference.
* `readings` — the ways in which one operator acts on an occupation.
* `reach`, `mem_reach_cons` — what a list of operators can make of an occupation.
* `Expr.raisesTo`, `Expr.lowersFrom` — whether some term can make a determinant of a rank out of
  the reference, and the other way round.
* `Expr.raisesUpTo_iff`, `Expr.lowersFromUpTo_iff` — the questions for any rank up to a bound,
  which look no further than the number of operators.
-/

namespace SecondQuant

/-- The numbers of holes, particles and photons above the reference, however large; `Occupation32`
holds them as the program does. -/
structure Occupation where
  holes : Nat
  particles : Nat
  photons : Nat
  deriving DecidableEq

namespace Occupation

/-- The reference state. -/
def reference : Occupation := ⟨0, 0, 0⟩

/-- A determinant of rank `k`: `k` holes, `k` particles and no photon. -/
def determinant (k : Nat) : Occupation := ⟨k, k, 0⟩

/-- Whether the occupation is a determinant of rank at most `k`. -/
def isDeterminantUpTo (k : Nat) (o : Occupation) : Bool :=
  decide (o = determinant o.holes) && decide (o.holes ≤ k)

/-- Holes first, then particles, then photons. -/
def cmp : Occupation → Occupation → Ordering :=
  compareLex (compareOn holes) <| compareLex (compareOn particles) (compareOn photons)

instance : Std.TransCmp cmp :=
  inferInstanceAs (Std.TransCmp <|
    compareLex (compareOn holes) <| compareLex (compareOn particles) (compareOn photons))

instance : Std.LawfulEqCmp cmp where
  eq_of_compare {o p} h := by
    obtain ⟨hh, h⟩ := Ordering.then_eq_eq.mp h
    obtain ⟨hp, hx⟩ := Ordering.then_eq_eq.mp h
    have hh : o.holes = p.holes := Std.LawfulEqOrd.eq_of_compare hh
    have hp : o.particles = p.particles := Std.LawfulEqOrd.eq_of_compare hp
    have hx : o.photons = p.photons := Std.LawfulEqOrd.eq_of_compare hx
    cases o; cases p; simp_all

end Occupation

/-! ## Counting

An operator shifts one count by one.  The sum is exact here: `stored` reduces it to the counter.
-/

/-- One less, unless there is nothing to take from. -/
def pred? : Nat → Option Nat
  | 0 => none
  | n + 1 => some n

/-- An operator on an occupied state: annihilation makes a hole, creation fills one. -/
def actOccupied : Action → Occupation → Option Occupation
  | .annihilation, o => some { o with holes := o.holes + 1 }
  | .creation, o => (pred? o.holes).map fun n => { o with holes := n }

/-- An operator on a virtual state: creation makes a particle, annihilation removes one. -/
def actVirtual : Action → Occupation → Option Occupation
  | .creation, o => some { o with particles := o.particles + 1 }
  | .annihilation, o => (pred? o.particles).map fun n => { o with particles := n }

/-- An operator on a photon mode: creation adds a photon, annihilation removes one. -/
def actPhoton : Action → Occupation → Option Occupation
  | .creation, o => some { o with photons := o.photons + 1 }
  | .annihilation, o => (pred? o.photons).map fun n => { o with photons := n }

/-- The ways in which an elementary operator acts.  A fermion has no photon states, and a boson
counts as a photon whatever its index. -/
def ladderReadings (l : Ladder) (s : Space) : List (Occupation → Option Occupation) :=
  match l.statistics, s with
  | .boson, _ => [actPhoton l.action]
  | .fermion, .occupied => [actOccupied l.action]
  | .fermion, .virtual => [actVirtual l.action]
  | .fermion, .general => [actOccupied l.action, actVirtual l.action]
  | .fermion, .photon => []

/-- The ways in which an operator acts; a malformed one has none. -/
def readings (t : Tensor) : List (Occupation → Option Occupation) :=
  match t.elementary? with
  | some (l, i) => ladderReadings l i.space
  | none => []

/-! ## Following a term -/

/-- What a list of readings can make of a list of occupations.  A reading shifts one count, so it
keeps occupations in ascending order. -/
def images (fs : List (Occupation → Option Occupation)) (os : List Occupation) :
    List Occupation :=
  (fs.map fun f => os.filterMap f).foldr (unionBy Occupation.cmp) []

/-- What a list of operators, acting from right to left, can make of an occupation. -/
def reach (ts : List Tensor) (start : Occupation) : List Occupation :=
  match ts with
  | [] => [start]
  | t :: ts => images (readings t) (reach ts start)

theorem mem_images {fs : List (Occupation → Option Occupation)} {os : List Occupation}
    {final : Occupation} : final ∈ images fs os ↔ ∃ f ∈ fs, ∃ o ∈ os, f o = some final := by
  unfold images
  induction fs with
  | nil => simp
  | cons f fs ih =>
      rw [List.map_cons, List.foldr_cons, mem_unionBy, ih, List.mem_filterMap]
      simp only [List.mem_cons, exists_eq_or_imp]

/-- The occupations after one more operator are what its readings make of those before. -/
theorem mem_reach_cons {t : Tensor} {ts : List Tensor} {start final : Occupation} :
    final ∈ reach (t :: ts) start ↔ ∃ f ∈ readings t, ∃ o ∈ reach ts start, f o = some final :=
  mem_images

/-! ## How far a term reaches -/

theorem pred?_eq_some {m n : Nat} : pred? m = some n ↔ m = n + 1 := by
  cases m with
  | zero => simp [pred?]
  | succ m => simp [pred?]

theorem holes_near_of_actOccupied {a : Action} {o p : Occupation}
    (h : actOccupied a o = some p) : o.holes ≤ p.holes + 1 ∧ p.holes ≤ o.holes + 1 := by
  cases a with
  | creation =>
      obtain ⟨n, hn, rfl⟩ := Option.map_eq_some_iff.mp h
      have hn : o.holes = n + 1 := pred?_eq_some.mp hn
      exact ⟨Nat.le_of_eq hn, hn ▸ Nat.le_succ_of_le (Nat.le_succ n)⟩
  | annihilation =>
      obtain rfl := Option.some.inj h
      exact ⟨Nat.le_succ_of_le (Nat.le_succ _), Nat.le_refl _⟩

theorem holes_of_actVirtual {a : Action} {o p : Occupation} (h : actVirtual a o = some p) :
    o.holes = p.holes := by
  cases a with
  | creation =>
      obtain rfl := Option.some.inj h
      rfl
  | annihilation =>
      obtain ⟨_, _, rfl⟩ := Option.map_eq_some_iff.mp h
      rfl

theorem holes_of_actPhoton {a : Action} {o p : Occupation} (h : actPhoton a o = some p) :
    o.holes = p.holes := by
  cases a with
  | creation =>
      obtain rfl := Option.some.inj h
      rfl
  | annihilation =>
      obtain ⟨_, _, rfl⟩ := Option.map_eq_some_iff.mp h
      rfl

theorem holes_near_of_ladderReadings {l : Ladder} {s : Space}
    {f : Occupation → Option Occupation} {o p : Occupation} (hf : f ∈ ladderReadings l s)
    (h : f o = some p) : o.holes ≤ p.holes + 1 ∧ p.holes ≤ o.holes + 1 := by
  have hnear : o.holes = p.holes → o.holes ≤ p.holes + 1 ∧ p.holes ≤ o.holes + 1 := by omega
  unfold ladderReadings at hf
  split at hf
  · rw [List.mem_singleton.mp hf] at h
    exact hnear (holes_of_actPhoton h)
  · rw [List.mem_singleton.mp hf] at h
    exact holes_near_of_actOccupied h
  · rw [List.mem_singleton.mp hf] at h
    exact hnear (holes_of_actVirtual h)
  · rcases List.mem_cons.mp hf with rfl | hf
    · exact holes_near_of_actOccupied h
    · rw [List.mem_singleton.mp hf] at h
      exact hnear (holes_of_actVirtual h)
  · exact nomatch hf

/-- An operator makes at most one hole, and fills at most one. -/
theorem holes_near_of_readings {t : Tensor} {f : Occupation → Option Occupation}
    {o p : Occupation} (hf : f ∈ readings t) (h : f o = some p) :
    o.holes ≤ p.holes + 1 ∧ p.holes ≤ o.holes + 1 := by
  unfold readings at hf
  split at hf
  · exact holes_near_of_ladderReadings hf h
  · exact nomatch hf

/-- A list of operators fills at most as many holes as it is long. -/
theorem holes_le_of_mem_reach {ts : List Tensor} {start final : Occupation}
    (h : final ∈ reach ts start) : start.holes ≤ final.holes + ts.length := by
  induction ts generalizing final with
  | nil =>
      obtain rfl := List.mem_singleton.mp h
      exact Nat.le_refl _
  | cons t ts ih =>
      obtain ⟨f, hf, o, ho, hfo⟩ := mem_reach_cons.mp h
      have h1 := ih ho
      have h2 := (holes_near_of_readings hf hfo).1
      rw [List.length_cons]
      omega

/-! ## Screening -/

/-- Whether a question is true of one of `n` consecutive numbers. -/
def anyFrom (p : Nat → Bool) (start : Nat) : Nat → Bool
  | 0 => false
  | n + 1 => p start || anyFrom p (start + 1) n

/-- Whether a question is true of a number up to `k`. -/
def anyUpTo (p : Nat → Bool) (k : Nat) : Bool :=
  anyFrom p 0 (k + 1)

theorem anyFrom_iff {p : Nat → Bool} {start n : Nat} :
    anyFrom p start n = true ↔ ∃ k, start ≤ k ∧ k < start + n ∧ p k = true := by
  induction n generalizing start with
  | zero => simp only [anyFrom, Bool.false_eq_true, false_iff]; omega
  | succ n ih =>
      rw [anyFrom, Bool.or_eq_true, ih]
      constructor
      · rintro (h | ⟨k, hk, hn, h⟩)
        · exact ⟨start, Nat.le_refl _, by omega, h⟩
        · exact ⟨k, by omega, by omega, h⟩
      · rintro ⟨k, hk, hn, h⟩
        by_cases e : k = start
        · exact .inl (e ▸ h)
        · exact .inr ⟨k, by omega, by omega, h⟩

theorem anyUpTo_iff {p : Nat → Bool} {k : Nat} :
    anyUpTo p k = true ↔ ∃ r, r ≤ k ∧ p r = true := by
  rw [anyUpTo, anyFrom_iff]
  constructor
  · rintro ⟨r, _, hr, h⟩; exact ⟨r, by omega, h⟩
  · rintro ⟨r, hr, h⟩; exact ⟨r, Nat.zero_le _, by omega, h⟩

/-- Whether a list of operators can lead from one occupation to another. -/
def connects (ts : List Tensor) (start final : Occupation) : Bool :=
  (reach ts start).contains final

/-- Whether a list of operators can make a determinant of rank at most `k` out of the
reference. -/
def makesUpTo (k : Nat) (ts : List Tensor) : Bool :=
  (reach ts .reference).any (Occupation.isDeterminantUpTo k)

/-- Whether a list of operators can bring a determinant of rank at most `k` back to the
reference; only ranks up to the number of operators are tried. -/
def undoesUpTo (k : Nat) (ts : List Tensor) : Bool :=
  anyUpTo (fun r => connects ts (.determinant r) .reference) (min k ts.length)

theorem connects_iff {ts : List Tensor} {start final : Occupation} :
    connects ts start final = true ↔ final ∈ reach ts start :=
  List.contains_iff_mem

theorem makesUpTo_iff {k : Nat} {ts : List Tensor} :
    makesUpTo k ts = true ↔ ∃ r, r ≤ k ∧ connects ts .reference (.determinant r) = true := by
  simp only [makesUpTo, List.any_eq_true, Occupation.isDeterminantUpTo, Bool.and_eq_true,
    decide_eq_true_eq, connects_iff]
  constructor
  · rintro ⟨o, ho, he, hk⟩
    exact ⟨o.holes, hk, he ▸ ho⟩
  · rintro ⟨r, hk, ho⟩
    exact ⟨_, ho, rfl, hk⟩

theorem undoesUpTo_iff {k : Nat} {ts : List Tensor} :
    undoesUpTo k ts = true ↔
      ∃ r, r ≤ k ∧ connects ts (.determinant r) .reference = true := by
  rw [undoesUpTo, anyUpTo_iff]
  constructor
  · rintro ⟨r, hr, h⟩
    exact ⟨r, Nat.le_trans hr (Nat.min_le_left _ _), h⟩
  · rintro ⟨r, hr, h⟩
    have hl : r ≤ 0 + ts.length := holes_le_of_mem_reach (connects_iff.mp h)
    exact ⟨r, Nat.le_min.mpr ⟨hr, by omega⟩, h⟩

namespace Expr

/-- Whether some term can make a determinant of rank `k` out of the reference. -/
def raisesTo (e : Expr) (k : Nat) : Bool :=
  e.terms.any fun t => connects t.2.operators .reference (.determinant k)

/-- Whether some term can make a determinant of rank at most `k` out of the reference. -/
def raisesUpTo (e : Expr) (k : Nat) : Bool :=
  e.terms.any fun t => makesUpTo k t.2.operators

/-- Whether some term can bring a determinant of rank `k` back to the reference. -/
def lowersFrom (e : Expr) (k : Nat) : Bool :=
  e.terms.any fun t => connects t.2.operators (.determinant k) .reference

/-- Whether some term can bring a determinant of rank at most `k` back to the reference. -/
def lowersFromUpTo (e : Expr) (k : Nat) : Bool :=
  e.terms.any fun t => undoesUpTo k t.2.operators

/-- Some rank up to the bound can be made. -/
theorem raisesUpTo_iff {e : Expr} {k : Nat} :
    e.raisesUpTo k = true ↔ ∃ r, r ≤ k ∧ e.raisesTo r = true := by
  simp only [raisesUpTo, raisesTo, List.any_eq_true, makesUpTo_iff]
  exact ⟨fun ⟨t, ht, r, hr, h⟩ => ⟨r, hr, t, ht, h⟩, fun ⟨r, hr, t, ht, h⟩ => ⟨t, ht, r, hr, h⟩⟩

/-- Some rank up to the bound can be brought back. -/
theorem lowersFromUpTo_iff {e : Expr} {k : Nat} :
    e.lowersFromUpTo k = true ↔ ∃ r, r ≤ k ∧ e.lowersFrom r = true := by
  simp only [lowersFromUpTo, lowersFrom, List.any_eq_true, undoesUpTo_iff]
  exact ⟨fun ⟨t, ht, r, hr, h⟩ => ⟨r, hr, t, ht, h⟩, fun ⟨r, hr, t, ht, h⟩ => ⟨t, ht, r, hr, h⟩⟩

end Expr

end SecondQuant
