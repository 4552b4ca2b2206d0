import Mathlib.Data.List.Nodup
import SecondQuant.Pattern

/-!
# The positions of a pattern

Which positions a list of pairs uses, which it leaves, and where the positions that it leaves are
found once the others are gone.

* `uncontracted` — the positions that a list of pairs leaves; with those of the pairs they are all
  positions (`positions_append_uncontracted_perm`).
* `Pattern.Fits` — whether a pattern stays inside a chain of some length.
* `Pair.relabel`, `KeepsOrder` — a pair at new positions, and renumberings that keep the order.
* `shiftedPosition`, `Pattern.shift` — the new position of an operator that is left; shifting keeps
  the order (`Pattern.keepsOrder_shift`).
-/

namespace SecondQuant

/-! ## Positions that are used -/

theorem mem_positions {k : Nat} {ps : List Pair} :
    k ∈ positions ps ↔ ∃ p ∈ ps, k = p.left ∨ k = p.right := by
  induction ps with
  | nil => simp [positions]
  | cons p ps ih =>
      simp only [positions, List.mem_cons, ih, exists_eq_or_imp]
      exact or_assoc.symm

theorem mem_positions_singleton {k : Nat} {p : Pair} :
    k ∈ positions [p] ↔ k = p.left ∨ k = p.right := by
  simp [positions]

theorem positions_append (ps qs : List Pair) :
    positions (ps ++ qs) = positions ps ++ positions qs := by
  induction ps with
  | nil => rfl
  | cons p ps ih =>
      rw [List.cons_append, positions, ih, positions, List.cons_append, List.cons_append]

theorem positions_sublist {ps qs : List Pair} (h : ps.Sublist qs) :
    (positions ps).Sublist (positions qs) := by
  induction h with
  | slnil => exact List.Sublist.slnil
  | cons q _ ih => exact (ih.cons q.right).cons q.left
  | cons_cons p _ ih => exact (ih.cons_cons p.right).cons_cons p.left

/-! ## Positions that are left -/

/-- The positions other than those of a list of pairs. -/
def uncontracted (ks : List Nat) (ps : List Pair) : List Nat :=
  ks.filter fun k => decide (k ∉ positions ps)

theorem mem_uncontracted {k : Nat} {ks : List Nat} {ps : List Pair} :
    k ∈ uncontracted ks ps ↔ k ∈ ks ∧ k ∉ positions ps := by
  rw [uncontracted, List.mem_filter, decide_eq_true_eq]

theorem uncontracted_nil (ks : List Nat) : uncontracted ks [] = ks :=
  List.filter_eq_self.mpr fun _ _ => decide_eq_true List.not_mem_nil

theorem uncontracted_uncontracted (ks : List Nat) (ps qs : List Pair) :
    uncontracted (uncontracted ks ps) qs = uncontracted ks (ps ++ qs) := by
  rw [uncontracted, uncontracted, List.filter_filter]
  refine List.filter_congr fun k _ => Bool.eq_iff_iff.mpr ?_
  simp only [Bool.and_eq_true, decide_eq_true_eq, positions_append, List.mem_append, not_or]
  exact and_comm

/-- The positions of the pairs and those that are left are all positions. -/
theorem positions_append_uncontracted_perm {ks : List Nat} {ps : List Pair} (hks : ks.Nodup)
    (hps : (positions ps).Nodup) (hsub : ∀ k ∈ positions ps, k ∈ ks) :
    (positions ps ++ uncontracted ks ps).Perm ks := by
  have hnodup : (positions ps ++ uncontracted ks ps).Nodup := by
    refine List.nodup_append'.mpr ⟨hps, hks.filter _, fun k hk hk' => ?_⟩
    exact (mem_uncontracted.mp hk').2 hk
  refine (List.perm_ext_iff_of_nodup hnodup hks).mpr ?_
  intro k
  rw [List.mem_append, mem_uncontracted]
  constructor
  · rintro (hk | ⟨hk, _⟩)
    · exact hsub k hk
    · exact hk
  · intro hk
    by_cases hp : k ∈ positions ps
    · exact .inl hp
    · exact .inr ⟨hk, hp⟩

/-! ## Patterns -/

namespace Pattern

/-- Whether all positions of a pattern lie in a chain of length `n`. -/
def Fits (M : Pattern) (n : Nat) : Prop :=
  ∀ k ∈ positions M.pairs, k < n

theorem outOfChain?_eq_none_iff {M : Pattern} {n : Nat} :
    M.outOfChain? n = none ↔ M.Fits n := by
  have hhigh : ∀ p : Pair, ¬n ≤ p.high ↔ p.left < n ∧ p.right < n := by
    intro p
    rw [Nat.not_le, Pair.high, Nat.max_lt]
  simp only [outOfChain?, Option.map_eq_none_iff, List.find?_eq_none, decide_eq_true_eq, hhigh,
    Fits, mem_positions]
  constructor
  · rintro h k ⟨p, hp, rfl | rfl⟩
    · exact (h p hp).1
    · exact (h p hp).2
  · exact fun h p hp => ⟨h _ ⟨p, hp, .inl rfl⟩, h _ ⟨p, hp, .inr rfl⟩⟩

theorem pairs_of_ofPairs {ps : List Pair} {M : Pattern} (h : ofPairs ps = .ok M) :
    M.pairs = ps := by
  unfold ofPairs at h
  split at h
  · cases h
  · cases h
    rfl

end Pattern

/-! ## Renumbered positions -/

/-- The pair at new positions. -/
def Pair.relabel (f : Nat → Nat) (p : Pair) : Pair :=
  ⟨f p.left, f p.right⟩

/-- Whether a renumbering keeps the order among the positions with a property. -/
def KeepsOrder (f : Nat → Nat) (s : Nat → Prop) : Prop :=
  ∀ j k, s j → s k → (f j < f k ↔ j < k)

theorem positions_relabel (f : Nat → Nat) (ps : List Pair) :
    positions (ps.map (Pair.relabel f)) = (positions ps).map f := by
  induction ps with
  | nil => rfl
  | cons p ps ih =>
      rw [List.map_cons, positions, ih, positions, List.map_cons, List.map_cons]
      rfl

section Relabel

variable {f : Nat → Nat} {s : Nat → Prop}

theorem KeepsOrder.eq_of_eq (hf : KeepsOrder f s) {j k : Nat} (hj : s j) (hk : s k)
    (h : f j = f k) : j = k := by
  have hlt := hf j k hj hk
  have hgt := hf k j hk hj
  omega

theorem uncontracted_relabel (hf : KeepsOrder f s) {ks : List Nat} {ps : List Pair}
    (hks : ∀ k ∈ ks, s k) (hps : ∀ k ∈ positions ps, s k) :
    uncontracted (ks.map f) (ps.map (Pair.relabel f)) = (uncontracted ks ps).map f := by
  rw [uncontracted, uncontracted, List.filter_map]
  congr 1
  refine List.filter_congr ?_
  intro k hk
  rw [Function.comp, positions_relabel, decide_eq_decide, not_iff_not, List.mem_map]
  constructor
  · rintro ⟨j, hj, h⟩
    exact hf.eq_of_eq (hps j hj) (hks k hk) h ▸ hj
  · intro h
    exact ⟨k, h, rfl⟩

end Relabel

/-! ## Shifted positions -/

/-- The position of an operator after the pairs of a list have been contracted: one less for each
position before it that they use. -/
def shiftedPosition (ps : List Pair) (k : Nat) : Nat :=
  k - (positions ps).countP fun j => decide (j < k)

/-- The position of an operator among those that a pattern leaves. -/
def Pattern.shift (M : Pattern) : Nat → Nat :=
  shiftedPosition M.pairs

namespace Pattern

theorem countP_lt_succ (M : Pattern) (k : Nat) :
    ((positions M.pairs).countP fun j => decide (j < k + 1)) =
      ((positions M.pairs).countP fun j => decide (j < k)) +
        if k ∈ positions M.pairs then 1 else 0 := by
  have hcount : (positions M.pairs).count k = if k ∈ positions M.pairs then 1 else 0 := by
    split
    · next h => exact List.count_eq_one_of_mem M.nodup h
    · next h => exact List.count_eq_zero.mpr h
  rw [← hcount]
  induction positions M.pairs with
  | nil => rfl
  | cons j js ih =>
      simp only [List.countP_cons, List.count_cons, ih, decide_eq_true_eq, beq_iff_eq]
      split_ifs <;> omega

theorem countP_lt_le (M : Pattern) (k : Nat) :
    ((positions M.pairs).countP fun j => decide (j < k)) ≤ k := by
  induction k with
  | zero => exact Nat.le_of_eq (List.countP_eq_zero.mpr fun j _ => by simp)
  | succ k ih =>
      rw [countP_lt_succ]
      split <;> omega

@[simp] theorem shift_zero (M : Pattern) : M.shift 0 = 0 :=
  Nat.zero_sub _

/-- A position that is left counts towards those behind it. -/
theorem shift_succ_of_not_mem {M : Pattern} {k : Nat} (h : k ∉ positions M.pairs) :
    M.shift (k + 1) = M.shift k + 1 := by
  have hle := M.countP_lt_le k
  rw [shift, shiftedPosition, shiftedPosition, countP_lt_succ, if_neg h]
  omega

theorem shift_succ_of_mem {M : Pattern} {k : Nat} (h : k ∈ positions M.pairs) :
    M.shift (k + 1) = M.shift k := by
  have hle := M.countP_lt_le k
  rw [shift, shiftedPosition, shiftedPosition, countP_lt_succ, if_pos h]
  omega

theorem shift_le_shift {M : Pattern} {j k : Nat} (h : j ≤ k) : M.shift j ≤ M.shift k := by
  induction h with
  | refl => exact Nat.le_refl _
  | @step k _ ih =>
      by_cases hk : k ∈ positions M.pairs
      · rwa [shift_succ_of_mem hk]
      · rw [shift_succ_of_not_mem hk]
        omega

/-- A position that is left keeps its place before those behind it. -/
theorem shift_lt_shift_iff {M : Pattern} {j k : Nat} (hj : j ∉ positions M.pairs) :
    M.shift j < M.shift k ↔ j < k := by
  constructor
  · intro h
    by_contra hle
    have hkj := shift_le_shift (M := M) (Nat.le_of_not_lt hle)
    omega
  · intro h
    have hstep := shift_le_shift (M := M) (Nat.succ_le_of_lt h)
    rw [Nat.succ_eq_add_one, shift_succ_of_not_mem hj] at hstep
    omega

theorem keepsOrder_shift (M : Pattern) : KeepsOrder M.shift fun k => k ∉ positions M.pairs :=
  fun _ _ hj _ => shift_lt_shift_iff hj

end Pattern

end SecondQuant
