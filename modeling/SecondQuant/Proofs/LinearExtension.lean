import Mathlib.Algebra.Algebra.Rat
import Mathlib.Algebra.BigOperators.Group.List.Basic
import Mathlib.Algebra.Module.LinearMap.Defs
import Mathlib.Data.List.Nodup
import SecondQuant.Combination

/-!
# Linear extension

A function on the members of linear combinations extends to the combinations themselves.  Merging
members and dropping those that cancel does not change the value, so anything linear can be read
off a list before it is collected.

* `Combination.eval` — the linear extension of a function.
* `Combination.eval_collect` — collecting keeps the value.
* `Combination.mem_collect` — collecting brings in no new member.
* `Combination.collect_map` — collecting commutes with a map that keeps the order.
* `Combination.collect_eq_self` — a reduced combination is left alone.
* `Combination.collect_perm` — collecting terms that are distinct only sorts them.
-/

namespace SecondQuant

namespace Combination

variable {α β M : Type} [AddCommMonoid M] [Module ℚ M]

/-! ## The value of a combination -/

/-- The linear extension of a function to combinations. -/
def eval (f : α → M) (p : Combination α) : M :=
  (p.map fun t => t.1 • f t.2).sum

@[simp] theorem eval_nil (f : α → M) : eval f [] = 0 := rfl

@[simp] theorem eval_cons (f : α → M) (t : ℚ × α) (p : Combination α) :
    eval f (t :: p) = t.1 • f t.2 + eval f p := by
  rw [eval, List.map_cons, List.sum_cons, eval]

@[simp] theorem eval_append (f : α → M) (p q : Combination α) :
    eval f (p ++ q) = eval f p + eval f q := by
  rw [eval, List.map_append, List.sum_append, eval, eval]

@[simp] theorem eval_scale (f : α → M) (c : ℚ) (p : Combination α) :
    eval f (scale c p) = c • eval f p := by
  induction p with
  | nil => exact (smul_zero c).symm
  | cons t p ih =>
      rw [scale, List.map_cons, ← scale, eval_cons, ih, eval_cons, smul_add, mul_smul]

theorem eval_single (f : α → M) (t : ℚ × α) : eval f (single t) = t.1 • f t.2 := by
  rw [single]
  split
  · next h => rw [eval_nil, h, zero_smul]
  · rw [eval_cons, eval_nil, add_zero]

theorem eval_map (f : β → M) (g : α → β) (p : Combination α) :
    eval f (p.map fun t => (t.1, g t.2)) = eval (fun a => f (g a)) p := by
  rw [eval, List.map_map, eval]
  rfl

/-- A list of combinations put one after the other is worth the sum of their values. -/
theorem eval_flatMap {γ : Type} (f : α → M) (g : γ → Combination α) (l : List γ) :
    eval f (l.flatMap g) = (l.map fun x => eval f (g x)).sum := by
  induction l with
  | nil => rfl
  | cons x l ih => rw [List.flatMap_cons, eval_append, ih, List.map_cons, List.sum_cons]

theorem eval_congr {f g : α → M} {p : Combination α} (h : ∀ t ∈ p, f t.2 = g t.2) :
    eval f p = eval g p := by
  induction p with
  | nil => rfl
  | cons t p ih =>
      obtain ⟨ht, hp⟩ := List.forall_mem_cons.mp h
      rw [eval_cons, ht, ih hp, eval_cons]

/-- A linear map may be applied before or after the combination is evaluated. -/
theorem map_eval {N : Type} [AddCommMonoid N] [Module ℚ N] (φ : M →ₗ[ℚ] N) (f : α → M)
    (p : Combination α) : φ (eval f p) = eval (fun a => φ (f a)) p := by
  induction p with
  | nil => exact map_zero φ
  | cons t p ih => rw [eval_cons, map_add, map_smul, ih, eval_cons]

/-! ## Collecting keeps the value -/

section Collect

variable {cmp : α → α → Ordering} [Std.LawfulEqCmp cmp] {f : α → M}

theorem eval_addFrom {a : α} {c : ℚ} {p : Combination α}
    {rest : Combination α → Combination α} (h : ∀ q, eval f (rest q) = eval f p + eval f q)
    (q : Combination α) :
    eval f (addFrom cmp c a rest q) = eval f ((c, a) :: p) + eval f q := by
  induction q with
  | nil => rw [addFrom, eval_cons, h, eval_cons, add_assoc]
  | cons t q ih =>
      obtain ⟨k, b⟩ := t
      rw [addFrom]
      split
      · rw [eval_cons, h, eval_cons f (c, a), add_assoc]
      · next e =>
          obtain rfl : a = b := Std.LawfulEqCmp.eq_of_compare e
          have merged : eval f ((c, a) :: p) + eval f ((k, a) :: q) =
              (c + k) • f a + eval f (rest q) := by
            rw [eval_cons, eval_cons, h, add_smul]
            exact add_add_add_comm _ _ _ _
          rw [merged]
          split
          · next z => rw [z, zero_smul, zero_add]
          · rw [eval_cons]
      · rw [eval_cons, ih, eval_cons f (k, b), add_left_comm]

theorem eval_add (p q : Combination α) : eval f (add cmp p q) = eval f p + eval f q := by
  induction p generalizing q with
  | nil => exact (zero_add _).symm
  | cons t p ih => exact eval_addFrom ih q

theorem eval_total_push (p : Combination α) (ps : List (Combination α)) :
    eval f (total cmp (push cmp p ps)) = eval f p + eval f (total cmp ps) := by
  induction ps generalizing p with
  | nil => exact eval_add p []
  | cons q qs ih =>
      rw [push]
      split
      · next h =>
          obtain rfl := List.isEmpty_iff.mp h
          exact eval_add p _
      · refine (ih _).trans ?_
        rw [eval_add, add_assoc]
        exact congrArg _ (eval_add q _).symm

/-- The reduced form of a list has the value of the list. -/
theorem eval_collect (ts : Combination α) : eval f (collect cmp ts) = eval f ts := by
  rw [collect]
  induction ts with
  | nil => rfl
  | cons t ts ih => rw [List.foldr_cons, eval_total_push, ih, eval_single, eval_cons]

end Collect

/-! ## Members -/

section Members

variable {cmp : α → α → Ordering}

theorem mem_addFrom {P : α → Prop} {a : α} {c : ℚ} {rest : Combination α → Combination α}
    (ha : P a) (h : ∀ q, (∀ t ∈ q, P t.2) → ∀ t ∈ rest q, P t.2) {q : Combination α}
    (hq : ∀ t ∈ q, P t.2) : ∀ t ∈ addFrom cmp c a rest q, P t.2 := by
  induction q with
  | nil => exact List.forall_mem_cons.mpr ⟨ha, h [] hq⟩
  | cons t q ih =>
      obtain ⟨hb, hq'⟩ := List.forall_mem_cons.mp hq
      rw [addFrom]
      split
      · exact List.forall_mem_cons.mpr ⟨ha, h _ hq⟩
      · split
        · exact h q hq'
        · exact List.forall_mem_cons.mpr ⟨ha, h q hq'⟩
      · exact List.forall_mem_cons.mpr ⟨hb, ih hq'⟩

theorem mem_add {P : α → Prop} {p q : Combination α} (hp : ∀ t ∈ p, P t.2)
    (hq : ∀ t ∈ q, P t.2) : ∀ t ∈ add cmp p q, P t.2 := by
  induction p generalizing q with
  | nil => exact hq
  | cons t p ih =>
      obtain ⟨ha, hp⟩ := List.forall_mem_cons.mp hp
      exact mem_addFrom ha (fun _ h => ih hp h) hq

theorem mem_push {P : α → Prop} {p : Combination α} {ps : List (Combination α)}
    (hp : ∀ t ∈ p, P t.2) (hps : ∀ q ∈ ps, ∀ t ∈ q, P t.2) :
    ∀ q ∈ push cmp p ps, ∀ t ∈ q, P t.2 := by
  induction ps generalizing p with
  | nil => exact List.forall_mem_cons.mpr ⟨hp, hps⟩
  | cons q qs ih =>
      obtain ⟨hq, hqs⟩ := List.forall_mem_cons.mp hps
      rw [push]
      split
      · exact List.forall_mem_cons.mpr ⟨hp, hqs⟩
      · exact List.forall_mem_cons.mpr ⟨List.forall_mem_nil _, ih (mem_add hp hq) hqs⟩

theorem mem_total {P : α → Prop} {ps : List (Combination α)}
    (h : ∀ p ∈ ps, ∀ t ∈ p, P t.2) : ∀ t ∈ total cmp ps, P t.2 := by
  induction ps with
  | nil => exact List.forall_mem_nil _
  | cons p ps ih =>
      obtain ⟨hp, hps⟩ := List.forall_mem_cons.mp h
      exact mem_add hp (ih hps)

/-- A property of all members of a list holds of all members of its reduced form. -/
theorem mem_collect {P : α → Prop} {ts : Combination α} (h : ∀ t ∈ ts, P t.2) :
    ∀ t ∈ collect cmp ts, P t.2 := by
  refine mem_total ?_
  induction ts with
  | nil => exact List.forall_mem_nil _
  | cons t ts ih =>
      obtain ⟨ht, hts⟩ := List.forall_mem_cons.mp h
      refine mem_push (fun s hs => ?_) (ih hts)
      rw [single] at hs
      split at hs
      · cases hs
      · obtain rfl := List.mem_singleton.mp hs
        exact ht

end Members

/-! ## Maps that keep the order -/

section Map

variable {cmp : α → α → Ordering} {cmp' : β → β → Ordering} {g : α → β}

theorem addFrom_map (hg : ∀ a b, cmp' (g a) (g b) = cmp a b) {a : α} {c : ℚ}
    {rest : Combination α → Combination α} {rest' : Combination β → Combination β}
    (h : ∀ q, rest' (q.map (Prod.map id g)) = (rest q).map (Prod.map id g))
    (q : Combination α) :
    addFrom cmp' c (g a) rest' (q.map (Prod.map id g)) =
      (addFrom cmp c a rest q).map (Prod.map id g) := by
  induction q with
  | nil =>
      have h0 := h []
      rw [List.map_nil] at h0
      rw [List.map_nil, addFrom, h0, addFrom, List.map_cons, Prod.map, id]
  | cons t q ih =>
      obtain ⟨k, b⟩ := t
      have hkb : Prod.map id g (k, b) = (k, g b) := rfl
      rw [List.map_cons, hkb, addFrom, addFrom, hg]
      cases cmp a b with
      | lt =>
          have hq := h ((k, b) :: q)
          rw [List.map_cons, hkb] at hq
          simp only [hq, List.map_cons, Prod.map, id]
      | eq =>
          simp only
          split
          · exact h q
          · rw [List.map_cons, h q, Prod.map, id]
      | gt => simp only [ih, List.map_cons, hkb]

theorem add_map (hg : ∀ a b, cmp' (g a) (g b) = cmp a b) (p q : Combination α) :
    add cmp' (p.map (Prod.map id g)) (q.map (Prod.map id g)) =
      (add cmp p q).map (Prod.map id g) := by
  induction p generalizing q with
  | nil => rfl
  | cons t p ih => exact addFrom_map hg ih q

theorem push_map (hg : ∀ a b, cmp' (g a) (g b) = cmp a b) (p : Combination α)
    (ps : List (Combination α)) :
    push cmp' (p.map (Prod.map id g)) (ps.map (List.map (Prod.map id g))) =
      (push cmp p ps).map (List.map (Prod.map id g)) := by
  induction ps generalizing p with
  | nil => rfl
  | cons q qs ih =>
      rw [List.map_cons, push, push, List.isEmpty_map]
      split
      · rfl
      · rw [add_map hg, ih, List.map_cons, List.map_nil]

theorem total_map (hg : ∀ a b, cmp' (g a) (g b) = cmp a b) (ps : List (Combination α)) :
    total cmp' (ps.map (List.map (Prod.map id g))) =
      (total cmp ps).map (Prod.map id g) := by
  induction ps with
  | nil => rfl
  | cons p ps ih =>
      have hp : total cmp (p :: ps) = add cmp p (total cmp ps) := rfl
      rw [hp, ← add_map hg, ← ih]
      rfl

/-- Collecting commutes with a map of the members that keeps their order. -/
theorem collect_map (hg : ∀ a b, cmp' (g a) (g b) = cmp a b) (ts : Combination α) :
    collect cmp' (ts.map (Prod.map id g)) = (collect cmp ts).map (Prod.map id g) := by
  rw [collect, collect, ← total_map hg]
  congr 1
  induction ts with
  | nil => rfl
  | cons t ts ih =>
      have ht : single (Prod.map id g t) = (single t).map (Prod.map id g) := by
        rw [single, single, Prod.map_fst, id, apply_ite (List.map (Prod.map id g))]
        rfl
      rw [List.map_cons, List.foldr_cons, ih, List.foldr_cons, ← push_map hg, ht]

end Map

/-- A reduced combination is its own reduced form. -/
theorem collect_eq_self [DecidableEq α] {cmp : α → α → Ordering} [Std.TransCmp cmp]
    [Std.LawfulEqCmp cmp] {p : Combination α} (h : Reduced cmp p) : collect cmp p = p :=
  eq_of_coefficient (reduced_collect p) h fun x => coefficient_collect x p

/-! ## Distinct members -/

section Distinct

variable [DecidableEq α] {cmp : α → α → Ordering} {p : Combination α}

theorem coefficient_eq_zero {x : α} (h : ∀ t ∈ p, t.2 ≠ x) : coefficient x p = 0 := by
  induction p with
  | nil => rfl
  | cons t p ih =>
      obtain ⟨ht, hp⟩ := List.forall_mem_cons.mp h
      rw [coefficient_cons, ih hp, contribution_of_ne ht, add_zero]

/-- The coefficient of a member that occurs once is the one it stands with. -/
theorem coefficient_of_mem (hp : (p.map Prod.snd).Nodup) {t : ℚ × α} (ht : t ∈ p) :
    coefficient t.2 p = t.1 := by
  induction p with
  | nil => exact nomatch ht
  | cons s p ih =>
      obtain ⟨hs, hp⟩ := List.nodup_cons.mp hp
      have hne : ∀ u ∈ p, u.2 ≠ s.2 := fun u hu h => hs (h ▸ List.mem_map_of_mem hu)
      rw [coefficient_cons]
      rcases List.mem_cons.mp ht with rfl | ht
      · rw [coefficient_eq_zero hne, add_zero]
        exact contribution_self t.2 t.1
      · rw [contribution_of_ne (hne t ht).symm, zero_add, ih hp ht]

theorem mem_iff_coefficient (hp : (p.map Prod.snd).Nodup) (hne : ∀ t ∈ p, t.1 ≠ 0) {t : ℚ × α} :
    t ∈ p ↔ t.1 ≠ 0 ∧ coefficient t.2 p = t.1 := by
  refine ⟨fun ht => ⟨hne t ht, coefficient_of_mem hp ht⟩, ?_⟩
  rintro ⟨h0, hcoefficient⟩
  obtain ⟨s, hs, hst⟩ : ∃ s ∈ p, s.2 = t.2 := by
    by_contra hnone
    exact h0 (hcoefficient.symm.trans (coefficient_eq_zero fun s hs h => hnone ⟨s, hs, h⟩))
  have hfst : s.1 = t.1 := by rw [← coefficient_of_mem hp hs, hst, hcoefficient]
  rwa [← Prod.ext hfst hst]

variable [Std.TransCmp cmp]

omit [DecidableEq α] in
/-- The members of a reduced combination are distinct. -/
theorem Reduced.nodup (h : Reduced cmp p) : (p.map Prod.snd).Nodup := by
  refine List.pairwise_map.mpr (h.1.imp fun {s t} hlt heq => ?_)
  have hself : cmp t.2 t.2 = .eq := Std.ReflCmp.compare_self
  rw [heq, hself] at hlt
  cases hlt

/-- Collecting terms that are distinct only sorts them. -/
theorem collect_perm [Std.LawfulEqCmp cmp] (hp : (p.map Prod.snd).Nodup)
    (hne : ∀ t ∈ p, t.1 ≠ 0) : (collect cmp p).Perm p := by
  have hreduced : Reduced cmp (collect cmp p) := reduced_collect p
  refine (List.perm_ext_iff_of_nodup (.of_map _ hreduced.nodup) (.of_map _ hp)).mpr fun t => ?_
  rw [mem_iff_coefficient hreduced.nodup hreduced.2, mem_iff_coefficient hp hne,
    coefficient_collect]

end Distinct

end Combination

end SecondQuant
