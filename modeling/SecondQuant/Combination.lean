/-!
# Linear combinations

A linear combination is a list of members with rational coefficients.  It is reduced when its
members ascend and no coefficient is 0; reduced combinations with the same coefficients are the
same list.

* `Combination.add` — the sum of two reduced combinations.
* `Combination.collect` — the reduced form of any list.  Runs of doubling length are merged, so
  a long list takes few comparisons for each member.
* `Combination.coefficient_collect`, `Combination.reduced_collect` — the reduced form has the
  coefficients of the list, and it is reduced.
-/

namespace SecondQuant

/-- A list of members with coefficients. -/
abbrev Combination (α : Type) := List (Rat × α)

namespace Combination

variable {α : Type}

/-! ## Operations -/

/-- All coefficients multiplied by a number. -/
def scale (c : Rat) (p : Combination α) : Combination α :=
  p.map fun t => (c * t.1, t.2)

/-- A single member; there is none if its coefficient is 0. -/
def single (t : Rat × α) : Combination α :=
  if t.1 = 0 then [] else [t]

/-- Adds to a combination a member and the ones behind it, for which `rest` is called. -/
def addFrom (cmp : α → α → Ordering) (c : Rat) (a : α)
    (rest : Combination α → Combination α) : Combination α → Combination α
  | [] => (c, a) :: rest []
  | (k, b) :: q =>
      match cmp a b with
      | .lt => (c, a) :: rest ((k, b) :: q)
      | .eq => if c + k = 0 then rest q else (c + k, a) :: rest q
      | .gt => (k, b) :: addFrom cmp c a rest q

/-- The sum of two reduced combinations: both are read once, from the smallest member on. -/
def add (cmp : α → α → Ordering) : Combination α → Combination α → Combination α
  | [], q => q
  | (c, a) :: p, q => addFrom cmp c a (add cmp p) q

/-- Adds a run to a list of runs of doubling length: it takes the first free place, and a run that
stands in its way is merged with it and moves on. -/
def push (cmp : α → α → Ordering) (p : Combination α) :
    List (Combination α) → List (Combination α)
  | [] => [p]
  | q :: qs => if q.isEmpty then p :: qs else [] :: push cmp (add cmp p q) qs

/-- The sum of a list of runs. -/
def total (cmp : α → α → Ordering) (ps : List (Combination α)) : Combination α :=
  ps.foldr (add cmp) []

/-- The reduced form of a list. -/
def collect (cmp : α → α → Ordering) (ts : Combination α) : Combination α :=
  total cmp (ts.foldr (fun t ps => push cmp (single t) ps) [])

/-! ## Coefficients -/

section Coefficients

variable [DecidableEq α]

/-- What one member contributes to the coefficient of `x`. -/
def contribution (x : α) (t : Rat × α) : Rat :=
  if t.2 = x then t.1 else 0

/-- The coefficient of a member, which may stand in several places. -/
def coefficient (x : α) : Combination α → Rat
  | [] => 0
  | t :: p => contribution x t + coefficient x p

theorem contribution_add (x a : α) (c k : Rat) :
    contribution x (c + k, a) = contribution x (c, a) + contribution x (k, a) := by
  simp only [contribution]
  split
  · rfl
  · exact (Rat.add_zero 0).symm

theorem contribution_self (a : α) (c : Rat) : contribution a (c, a) = c :=
  if_pos rfl

theorem contribution_of_ne {x : α} {t : Rat × α} (h : t.2 ≠ x) : contribution x t = 0 :=
  if_neg h

theorem contribution_zero (x a : α) : contribution x (0, a) = 0 :=
  ite_self 0

theorem coefficient_cons (x : α) (t : Rat × α) (p : Combination α) :
    coefficient x (t :: p) = contribution x t + coefficient x p := rfl

theorem coefficient_append (x : α) (p q : Combination α) :
    coefficient x (p ++ q) = coefficient x p + coefficient x q := by
  induction p with
  | nil => exact (Rat.zero_add _).symm
  | cons t p ih => rw [List.cons_append, coefficient_cons, ih, coefficient_cons, Rat.add_assoc]

theorem coefficient_single (x : α) (t : Rat × α) :
    coefficient x (single t) = coefficient x [t] := by
  obtain ⟨c, a⟩ := t
  rw [single]
  split
  · next h =>
      obtain rfl : c = 0 := h
      rw [coefficient_cons, contribution_zero, Rat.zero_add]
  · rfl

variable {cmp : α → α → Ordering} [Std.LawfulEqCmp cmp]

theorem coefficient_addFrom {x a : α} {c : Rat} {p : Combination α}
    {rest : Combination α → Combination α}
    (h : ∀ q, coefficient x (rest q) = coefficient x p + coefficient x q)
    (q : Combination α) :
    coefficient x (addFrom cmp c a rest q) = coefficient x ((c, a) :: p) + coefficient x q := by
  induction q with
  | nil => rw [addFrom, coefficient_cons, h, coefficient_cons, Rat.add_assoc]
  | cons t q ih =>
      obtain ⟨k, b⟩ := t
      rw [addFrom]
      split
      · rw [coefficient_cons, h, coefficient_cons x (c, a), Rat.add_assoc]
      · next e =>
          obtain rfl : a = b := Std.LawfulEqCmp.eq_of_compare e
          have merged : coefficient x ((c, a) :: p) + coefficient x ((k, a) :: q) =
              contribution x (c + k, a) + coefficient x (rest q) := by
            rw [coefficient_cons, coefficient_cons, h, contribution_add, Rat.add_assoc,
              Rat.add_assoc, Rat.add_left_comm (coefficient x p)]
          rw [merged]
          split
          · next z => rw [z, contribution_zero, Rat.zero_add]
          · rfl
      · rw [coefficient_cons, ih, coefficient_cons x (k, b), Rat.add_left_comm]

theorem coefficient_add (x : α) (p q : Combination α) :
    coefficient x (add cmp p q) = coefficient x p + coefficient x q := by
  induction p generalizing q with
  | nil => exact (Rat.zero_add _).symm
  | cons t p ih => exact coefficient_addFrom ih q

theorem coefficient_total_push (x : α) (p : Combination α) (ps : List (Combination α)) :
    coefficient x (total cmp (push cmp p ps)) =
      coefficient x p + coefficient x (total cmp ps) := by
  induction ps generalizing p with
  | nil => exact coefficient_add x p []
  | cons q qs ih =>
      rw [push]
      split
      · next h =>
          obtain rfl := List.isEmpty_iff.mp h
          exact coefficient_add x p _
      · refine (ih _).trans ?_
        rw [coefficient_add, Rat.add_assoc]
        exact congrArg _ (coefficient_add x q _).symm

/-- The reduced form has the coefficients of the list. -/
theorem coefficient_collect (x : α) (ts : Combination α) :
    coefficient x (collect cmp ts) = coefficient x ts := by
  rw [collect]
  induction ts with
  | nil => rfl
  | cons t ts ih =>
      rw [List.foldr_cons, coefficient_total_push, ih, coefficient_single]
      exact (coefficient_append x [t] ts).symm

end Coefficients

/-! ## Reduced combinations -/

/-- Whether the members ascend and no coefficient is 0. -/
def Reduced (cmp : α → α → Ordering) (p : Combination α) : Prop :=
  p.Pairwise (fun s t => cmp s.2 t.2 = .lt) ∧ ∀ t ∈ p, t.1 ≠ 0

/-- Whether all members come after `x`. -/
def Above (cmp : α → α → Ordering) (x : α) (p : Combination α) : Prop :=
  ∀ t ∈ p, cmp x t.2 = .lt

section Reduced

variable {cmp : α → α → Ordering}

theorem Above.cons {x a : α} {c : Rat} {p : Combination α} (ha : cmp x a = .lt)
    (hp : Above cmp x p) : Above cmp x ((c, a) :: p) :=
  List.forall_mem_cons.mpr ⟨ha, hp⟩

theorem Above.nil {x : α} : Above cmp x [] :=
  fun _ h => nomatch h

theorem Reduced.nil : Reduced cmp [] :=
  ⟨List.Pairwise.nil, fun _ h => nomatch h⟩

theorem reduced_cons {c : Rat} {a : α} {p : Combination α} :
    Reduced cmp ((c, a) :: p) ↔ (c ≠ 0 ∧ Above cmp a p) ∧ Reduced cmp p := by
  simp only [Reduced, Above, List.pairwise_cons, List.forall_mem_cons]
  exact ⟨fun ⟨⟨h, hp⟩, hc, h0⟩ => ⟨⟨hc, h⟩, hp, h0⟩, fun ⟨⟨hc, h⟩, hp, h0⟩ => ⟨⟨h, hp⟩, hc, h0⟩⟩

theorem reduced_single (t : Rat × α) : Reduced cmp (single t) := by
  rw [single]
  split
  · exact .nil
  · next h => exact reduced_cons.mpr ⟨⟨h, .nil⟩, .nil⟩

theorem above_addFrom {x a : α} {c : Rat} {rest : Combination α → Combination α}
    (ha : cmp x a = .lt) (h : ∀ q, Above cmp x q → Above cmp x (rest q))
    {q : Combination α} (hq : Above cmp x q) : Above cmp x (addFrom cmp c a rest q) := by
  induction q with
  | nil => exact (h [] hq).cons ha
  | cons t q ih =>
      obtain ⟨hb, hq'⟩ := List.forall_mem_cons.mp hq
      rw [addFrom]
      split
      · exact (h _ hq).cons ha
      · split
        · exact h q hq'
        · exact (h q hq').cons ha
      · exact (ih hq').cons hb

theorem above_add {x : α} {p q : Combination α} (hp : Above cmp x p) (hq : Above cmp x q) :
    Above cmp x (add cmp p q) := by
  induction p generalizing q with
  | nil => exact hq
  | cons t p ih =>
      obtain ⟨ha, hp⟩ := List.forall_mem_cons.mp hp
      exact above_addFrom ha (fun _ h => ih hp h) hq

variable [Std.TransCmp cmp]

theorem Above.of_lt {x y : α} {p : Combination α} (h : cmp x y = .lt) (hp : Above cmp y p) :
    Above cmp x p :=
  fun t ht => Std.TransCmp.lt_trans h (hp t ht)

theorem Above.of_eq {x y : α} {p : Combination α} (h : cmp x y = .eq) (hp : Above cmp y p) :
    Above cmp x p :=
  fun t ht => Std.TransCmp.lt_of_eq_of_lt h (hp t ht)

theorem reduced_addFrom {a : α} {c : Rat} {p : Combination α}
    {rest : Combination α → Combination α} (hc : c ≠ 0) (ha : Above cmp a p)
    (habove : ∀ x q, Above cmp x p → Above cmp x q → Above cmp x (rest q))
    (hrest : ∀ q, Reduced cmp q → Reduced cmp (rest q))
    {q : Combination α} (hq : Reduced cmp q) : Reduced cmp (addFrom cmp c a rest q) := by
  induction q with
  | nil => exact reduced_cons.mpr ⟨⟨hc, habove a [] ha .nil⟩, hrest [] hq⟩
  | cons t q ih =>
      obtain ⟨k, b⟩ := t
      obtain ⟨⟨hk, hb⟩, hq'⟩ := reduced_cons.mp hq
      rw [addFrom]
      split
      · next h => exact reduced_cons.mpr ⟨⟨hc, habove a _ ha ((hb.of_lt h).cons h)⟩, hrest _ hq⟩
      · next h =>
          split
          · exact hrest q hq'
          · next h0 => exact reduced_cons.mpr ⟨⟨h0, habove a q ha (hb.of_eq h)⟩, hrest q hq'⟩
      · next h =>
          have hba : cmp b a = .lt := Std.OrientedCmp.lt_of_gt h
          exact reduced_cons.mpr
            ⟨⟨hk, above_addFrom hba (fun _ hr => habove b _ (ha.of_lt hba) hr) hb⟩, ih hq'⟩

theorem reduced_add {p q : Combination α} (hp : Reduced cmp p) (hq : Reduced cmp q) :
    Reduced cmp (add cmp p q) := by
  induction p generalizing q with
  | nil => exact hq
  | cons t p ih =>
      obtain ⟨c, a⟩ := t
      obtain ⟨⟨hc, ha⟩, hp⟩ := reduced_cons.mp hp
      exact reduced_addFrom hc ha (fun _ _ h hq => above_add h hq) (fun _ h => ih hp h) hq

theorem reduced_push {p : Combination α} {ps : List (Combination α)} (hp : Reduced cmp p)
    (hps : ∀ q ∈ ps, Reduced cmp q) : ∀ q ∈ push cmp p ps, Reduced cmp q := by
  induction ps generalizing p with
  | nil => exact List.forall_mem_cons.mpr ⟨hp, hps⟩
  | cons q qs ih =>
      obtain ⟨hq, hqs⟩ := List.forall_mem_cons.mp hps
      rw [push]
      split
      · exact List.forall_mem_cons.mpr ⟨hp, hqs⟩
      · exact List.forall_mem_cons.mpr ⟨.nil, ih (reduced_add hp hq) hqs⟩

theorem reduced_total {ps : List (Combination α)} (h : ∀ p ∈ ps, Reduced cmp p) :
    Reduced cmp (total cmp ps) := by
  induction ps with
  | nil => exact .nil
  | cons p ps ih =>
      obtain ⟨hp, hps⟩ := List.forall_mem_cons.mp h
      exact reduced_add hp (ih hps)

/-- The reduced form is reduced. -/
theorem reduced_collect (ts : Combination α) : Reduced cmp (collect cmp ts) := by
  refine reduced_total ?_
  induction ts with
  | nil => exact fun _ h => nomatch h
  | cons t ts ih => exact reduced_push (reduced_single t) ih

theorem coefficient_of_above [DecidableEq α] {x : α} {p : Combination α} (h : Above cmp x p) :
    coefficient x p = 0 := by
  induction p with
  | nil => rfl
  | cons t p ih =>
      obtain ⟨ht, hp⟩ := List.forall_mem_cons.mp h
      have hne : t.2 ≠ x := fun e => by
        have hlt : cmp x x = .lt := e ▸ ht
        have heq : cmp x x = .eq := Std.ReflCmp.compare_self
        exact nomatch heq.symm.trans hlt
      rw [coefficient_cons, ih hp, contribution_of_ne hne, Rat.add_zero]

theorem coefficient_head [DecidableEq α] {c : Rat} {a : α} {p : Combination α}
    (h : Above cmp a p) : coefficient a ((c, a) :: p) = c := by
  rw [coefficient_cons, coefficient_of_above h, contribution_self, Rat.add_zero]

/-- Reduced combinations with the same coefficients are the same list. -/
theorem eq_of_coefficient [DecidableEq α] [Std.LawfulEqCmp cmp] {p q : Combination α}
    (hp : Reduced cmp p) (hq : Reduced cmp q) (h : ∀ x, coefficient x p = coefficient x q) :
    p = q := by
  induction p generalizing q with
  | nil =>
      cases q with
      | nil => rfl
      | cons t q =>
          obtain ⟨⟨hk, hb⟩, _⟩ := reduced_cons.mp hq
          exact absurd ((coefficient_head hb).symm.trans (h t.2).symm) hk
  | cons s p ih =>
      obtain ⟨c, a⟩ := s
      obtain ⟨⟨hc, ha⟩, hp'⟩ := reduced_cons.mp hp
      cases q with
      | nil => exact absurd ((coefficient_head ha).symm.trans (h a)) hc
      | cons t q =>
          obtain ⟨k, b⟩ := t
          obtain ⟨⟨hk, hb⟩, hq'⟩ := reduced_cons.mp hq
          cases e : cmp a b with
          | lt =>
              have h0 : coefficient a ((k, b) :: q) = 0 :=
                coefficient_of_above ((hb.of_lt e).cons e)
              exact absurd ((coefficient_head ha).symm.trans ((h a).trans h0)) hc
          | gt =>
              have e : cmp b a = .lt := Std.OrientedCmp.lt_of_gt e
              have h0 : coefficient b ((c, a) :: p) = 0 :=
                coefficient_of_above ((ha.of_lt e).cons e)
              exact absurd ((coefficient_head hb).symm.trans ((h b).symm.trans h0)) hk
          | eq =>
              obtain rfl : a = b := Std.LawfulEqCmp.eq_of_compare e
              obtain rfl : c = k :=
                (coefficient_head ha).symm.trans ((h a).trans (coefficient_head hb))
              refine congrArg _ (ih hp' hq' fun x => ?_)
              by_cases hx : a = x
              · subst hx
                rw [coefficient_of_above ha, coefficient_of_above hb]
              · have hx' := h x
                rwa [coefficient_cons, coefficient_cons, contribution_of_ne hx, Rat.zero_add,
                  Rat.zero_add] at hx'

end Reduced

end Combination

end SecondQuant
