import Mathlib.Data.List.Permutation
import Mathlib.Data.Finset.Dedup
import SecondQuant.Antisymmetry
import SecondQuant.Proofs.Permutation

/-!
# All arrangements of a list

`nextArrangement?` moves from a list to the least arrangement that is greater in lexicographic
order, and it stops at the descending one.  Followed from the ascending arrangement it meets every
arrangement once, however often an index is repeated.

* `perm_of_nextArrangement?`, `lt_of_nextArrangement?`, `isLE_of_nextArrangement?` — the next
  arrangement is a greater one, and the least of these.
* `descending_of_nextArrangement?` — only a descending list has no next arrangement.
* `mem_arrangements`, `pairwise_arrangements` — the arrangements of a list are its permutations,
  in strictly ascending order.
-/

namespace SecondQuant

variable {i j k : Index} {is js ks before behind : List Index}

/-! ## The first and the last arrangement -/

theorem compare_cons_eq_lt :
    compare (i :: is) (j :: js) = .lt ↔ compare i j = .lt ∨ i = j ∧ compare is js = .lt := by
  rw [List.compare_cons_cons, Ordering.then_eq_lt, Std.compare_eq_iff_eq]

theorem isLE_compare_cons :
    (compare (i :: is) (j :: js)).isLE ↔ compare i j = .lt ∨ i = j ∧ (compare is js).isLE := by
  rw [List.compare_cons_cons, Ordering.isLE_then_iff_or, Std.compare_eq_iff_eq]

theorem lt_of_isLE_of_ne (h : (compare i j).isLE) (hne : i ≠ j) : compare i j = .lt :=
  (Ordering.isLE_iff_eq_lt_or_eq_eq.mp h).resolve_right (mt Std.compare_eq_iff_eq.mp hne)

/-- An arrangement begins with the head of the list and arranges the tail, or begins with another
member of the tail. -/
theorem head_of_perm_cons (h : (j :: js).Perm (i :: is)) :
    (j = i ∧ js.Perm is) ∨ (j ≠ i ∧ j ∈ is) := by
  by_cases hji : j = i
  · exact .inl ⟨hji, (hji ▸ h).cons_inv⟩
  · exact .inr ⟨hji, (List.mem_cons.mp (h.subset List.mem_cons_self)).resolve_left hji⟩

/-- An ascending list is the least of its arrangements. -/
theorem isLE_of_ascending (h : is.Pairwise fun i j => (compare i j).isLE) (hperm : js.Perm is) :
    (compare is js).isLE := by
  induction h generalizing js with
  | nil =>
      rw [hperm.eq_nil]
      rfl
  | @cons i is hi _ ih =>
      obtain _ | ⟨j, js⟩ := js
      · exact absurd hperm.nil_eq (List.cons_ne_nil i is).symm
      · rw [isLE_compare_cons]
        rcases head_of_perm_cons hperm with ⟨rfl, htail⟩ | ⟨hne, hj⟩
        · exact .inr ⟨rfl, ih htail⟩
        · exact .inl (lt_of_isLE_of_ne (hi j hj) hne.symm)

/-- A descending list is the greatest of its arrangements. -/
theorem isLE_of_descending (h : is.Pairwise fun i j => (compare j i).isLE) (hperm : js.Perm is) :
    (compare js is).isLE := by
  induction h generalizing js with
  | nil =>
      rw [hperm.eq_nil]
      rfl
  | @cons i is hi _ ih =>
      obtain _ | ⟨j, js⟩ := js
      · exact absurd hperm.nil_eq (List.cons_ne_nil i is).symm
      · rw [isLE_compare_cons]
        rcases head_of_perm_cons hperm with ⟨rfl, htail⟩ | ⟨hne, hj⟩
        · exact .inr ⟨rfl, ih htail⟩
        · exact .inl (lt_of_isLE_of_ne (hi j hj) hne)

/-! ## Splitting a tail -/

theorem isLE_of_splitLastGreater?_eq_none (h : splitLastGreater? i js = none) :
    ∀ j ∈ js, (compare j i).isLE := by
  induction js with
  | nil => exact List.forall_mem_nil _
  | cons j js ih =>
      rw [splitLastGreater?] at h
      split at h
      · cases h
      · next hsplit =>
          have hj : compare i j ≠ .lt := fun hj => by rw [if_pos hj] at h; cases h
          refine List.forall_mem_cons.mpr ⟨?_, ih hsplit⟩
          exact Decidable.of_not_not (mt Std.OrientedCmp.lt_of_not_isLE hj)

/-- A list is split behind its last member that is greater than `i`. -/
theorem splitLastGreater?_eq_some (h : splitLastGreater? i js = some (before, k, behind)) :
    js = before ++ k :: behind ∧ compare i k = .lt ∧ ∀ j ∈ behind, (compare j i).isLE := by
  induction js generalizing before with
  | nil => cases h
  | cons j js ih =>
      rw [splitLastGreater?] at h
      split at h
      · next hsplit =>
          cases h
          obtain ⟨rfl, hk, hbehind⟩ := ih hsplit
          exact ⟨rfl, hk, hbehind⟩
      · next hsplit =>
          split at h
          · next hj =>
              cases h
              exact ⟨rfl, hj, isLE_of_splitLastGreater?_eq_none hsplit⟩
          · cases h

/-- In a descending tail the last member greater than `i` is the least one. -/
theorem isLE_of_mem_split (h : (before ++ k :: behind).Pairwise fun i j => (compare j i).isLE)
    (hbehind : ∀ j ∈ behind, (compare j i).isLE) (hj : j ∈ before ++ k :: behind)
    (hij : compare i j = .lt) : (compare k j).isLE := by
  have hnotin : j ∉ behind := fun hj => Std.OrientedCmp.not_lt_of_isLE (hbehind j hj) hij
  rcases List.mem_append.mp hj with hj | hj
  · exact (List.pairwise_append.mp h).2.2 j hj k List.mem_cons_self
  · rw [(List.mem_cons.mp hj).resolve_right hnotin]
    exact Std.ReflCmp.isLE_rfl

/-- With `i` in the place of the last greater member, a descending tail still descends; it is put
in ascending order by turning it round. -/
theorem ascending_reverse_of_split
    (h : (before ++ k :: behind).Pairwise fun i j => (compare j i).isLE) (hk : compare i k = .lt)
    (hbehind : ∀ j ∈ behind, (compare j i).isLE) :
    (before ++ i :: behind).reverse.Pairwise fun i j => (compare i j).isLE := by
  obtain ⟨hbefore, hcons, hacross⟩ := List.pairwise_append.mp h
  rw [List.pairwise_reverse, List.pairwise_append, List.pairwise_cons]
  refine ⟨hbefore, ⟨hbehind, hcons.of_cons⟩, fun a ha b hb => ?_⟩
  rcases List.mem_cons.mp hb with rfl | hb
  · have hka : (compare k a).isLE := hacross a ha k List.mem_cons_self
    exact Ordering.isLE_of_eq_lt (Std.TransCmp.lt_of_lt_of_isLE hk hka)
  · exact hacross a ha b (List.mem_cons_of_mem k hb)

/-! ## The next arrangement -/

/-- A list without a next arrangement descends. -/
theorem descending_of_nextArrangement? (h : nextArrangement? is = none) :
    is.Pairwise fun i j => (compare j i).isLE := by
  induction is with
  | nil => exact List.Pairwise.nil
  | cons i is ih =>
      rw [nextArrangement?] at h
      split at h
      · cases h
      · next htail =>
          rw [Option.map_eq_none_iff] at h
          exact (ih htail).cons (isLE_of_splitLastGreater?_eq_none h)

/-- What the next arrangement of a list with head `i` is: the tail moves on, or it descends, its
last member greater than `i` takes the place of `i`, and the others ascend behind it. -/
theorem nextArrangement?_cons (h : nextArrangement? (i :: is) = some js) :
    (∃ ks, nextArrangement? is = some ks ∧ js = i :: ks) ∨
    ∃ before k behind, is = before ++ k :: behind ∧
      (is.Pairwise fun i j => (compare j i).isLE) ∧ compare i k = .lt ∧
      (∀ j ∈ behind, (compare j i).isLE) ∧ js = k :: (before ++ i :: behind).reverse := by
  rw [nextArrangement?] at h
  split at h
  · next ks htail =>
      cases h
      exact .inl ⟨ks, htail, rfl⟩
  · next htail =>
      obtain ⟨⟨before, k, behind⟩, hsplit, rfl⟩ := Option.map_eq_some_iff.mp h
      obtain ⟨hsplit, hk, hbehind⟩ := splitLastGreater?_eq_some hsplit
      exact .inr ⟨before, k, behind, hsplit, descending_of_nextArrangement? htail, hk, hbehind, rfl⟩

open scoped List in
/-- The next arrangement has the same members. -/
theorem perm_of_nextArrangement? (h : nextArrangement? is = some js) : js.Perm is := by
  induction is generalizing js with
  | nil => cases h
  | cons i is ih =>
      rcases nextArrangement?_cons h with ⟨ks, htail, rfl⟩ | ⟨before, k, behind, rfl, -, -, -, rfl⟩
      · exact (ih htail).cons i
      · have hmiddle : ∀ a, (before ++ a :: behind).Perm (a :: (before ++ behind)) :=
          fun a => List.perm_middle
        calc k :: (before ++ i :: behind).reverse
          _ ~ k :: (before ++ i :: behind) := (List.reverse_perm _).cons k
          _ ~ k :: i :: (before ++ behind) := (hmiddle i).cons k
          _ ~ i :: k :: (before ++ behind) := List.Perm.swap i k _
          _ ~ i :: (before ++ k :: behind) := ((hmiddle k).symm).cons i

/-- The next arrangement is greater. -/
theorem lt_of_nextArrangement? (h : nextArrangement? is = some js) : compare is js = .lt := by
  induction is generalizing js with
  | nil => cases h
  | cons i is ih =>
      rcases nextArrangement?_cons h with ⟨ks, htail, rfl⟩ | ⟨before, k, behind, -, -, hk, -, rfl⟩
      · exact compare_cons_eq_lt.mpr (.inr ⟨rfl, ih htail⟩)
      · exact compare_cons_eq_lt.mpr (.inl hk)

/-- No arrangement stands between a list and the next one. -/
theorem isLE_of_nextArrangement? (h : nextArrangement? is = some js) (hperm : ks.Perm is)
    (hlt : compare is ks = .lt) : (compare js ks).isLE := by
  induction is generalizing js ks with
  | nil => cases h
  | cons i is ih =>
      obtain _ | ⟨j, ks⟩ := ks
      · exact absurd hperm.nil_eq (List.cons_ne_nil i is).symm
      · rcases nextArrangement?_cons h with
          ⟨ms, htail, rfl⟩ | ⟨before, k, behind, rfl, hdesc, hk, hbehind, rfl⟩
        · rw [isLE_compare_cons]
          exact (compare_cons_eq_lt.mp hlt).imp_right fun ⟨hij, hlt⟩ =>
            ⟨hij, ih htail (hij ▸ hperm).cons_inv hlt⟩
        · rcases head_of_perm_cons hperm with ⟨rfl, htail⟩ | ⟨hne, hj⟩
          · -- With the same head only the tail could be greater, but it is the last one.
            have htail_lt : compare (before ++ k :: behind) ks = .lt :=
              ((compare_cons_eq_lt.mp hlt).resolve_left (by simp)).2
            exact absurd htail_lt (Std.OrientedCmp.not_lt_of_isLE (isLE_of_descending hdesc htail))
          · have hij : compare i j = .lt :=
              (compare_cons_eq_lt.mp hlt).resolve_right fun hij => hne hij.1.symm
            have hkj : (compare k j).isLE := isLE_of_mem_split hdesc hbehind hj hij
            rw [isLE_compare_cons]
            rcases Ordering.isLE_iff_eq_lt_or_eq_eq.mp hkj with hlt | heq
            · exact .inl hlt
            · obtain rfl := Std.compare_eq_iff_eq.mp heq
              have htail := (hperm.trans (perm_of_nextArrangement? h).symm).cons_inv
              have hasc := ascending_reverse_of_split hdesc hk hbehind
              exact .inr ⟨rfl, isLE_of_ascending hasc htail⟩

/-! ## All arrangements -/

/-- The arrangements of a list that are greater than it. -/
def greaterArrangements (is : List Index) : Finset (List Index) :=
  is.permutations.toFinset.filter fun js => compare is js = .lt

theorem mem_greaterArrangements :
    js ∈ greaterArrangements is ↔ js.Perm is ∧ compare is js = .lt := by
  rw [greaterArrangements, Finset.mem_filter, List.mem_toFinset, List.mem_permutations]

/-- Fewer arrangements are greater than the next one. -/
theorem card_greaterArrangements_lt (h : nextArrangement? is = some js) :
    (greaterArrangements js).card < (greaterArrangements is).card := by
  have hperm := perm_of_nextArrangement? h
  have hlt := lt_of_nextArrangement? h
  refine Finset.card_lt_card ⟨fun ks hks => ?_, fun hsub => ?_⟩
  · obtain ⟨hks, hjs⟩ := mem_greaterArrangements.mp hks
    exact mem_greaterArrangements.mpr ⟨hks.trans hperm, Std.TransCmp.lt_trans hlt hjs⟩
  · have hself := hsub (mem_greaterArrangements.mpr ⟨hperm, hlt⟩)
    rw [mem_greaterArrangements, Std.compare_self] at hself
    exact absurd hself.2 (by decide)

theorem arrangementBound_eq_factorial (is : List Index) :
    arrangementBound is = is.length.factorial := by
  induction is with
  | nil => rfl
  | cons i is ih => rw [arrangementBound, ih, List.length_cons, Nat.factorial_succ]

theorem card_greaterArrangements_le (is : List Index) :
    (greaterArrangements is).card ≤ arrangementBound is := by
  rw [arrangementBound_eq_factorial, ← List.length_permutations]
  exact (Finset.card_filter_le _ _).trans (List.toFinset_card_le _)

theorem card_greaterArrangements_sortBy_le (is : List Index) :
    (greaterArrangements (sortBy compare is)).card ≤ arrangementBound is := by
  have hcard := card_greaterArrangements_le (sortBy compare is)
  rwa [arrangementBound_eq_factorial, length_sortBy, ← arrangementBound_eq_factorial] at hcard

/-- The list and the arrangements that follow it are arrangements not smaller than it. -/
theorem isLE_of_mem_arrangementsFrom {fuel : Nat} (h : js ∈ arrangementsFrom fuel is) :
    js.Perm is ∧ (compare is js).isLE := by
  induction fuel generalizing is with
  | zero =>
      rw [List.mem_singleton.mp h]
      exact ⟨List.Perm.refl is, Std.ReflCmp.isLE_rfl⟩
  | succ fuel ih =>
      rcases List.mem_cons.mp h with rfl | h
      · exact ⟨List.Perm.refl js, Std.ReflCmp.isLE_rfl⟩
      · split at h
        · cases h
        · next ks hnext =>
            obtain ⟨hperm, hle⟩ := ih h
            refine ⟨hperm.trans (perm_of_nextArrangement? hnext), ?_⟩
            exact Std.TransCmp.isLE_trans
              (Ordering.isLE_of_eq_lt (lt_of_nextArrangement? hnext)) hle

/-- With enough fuel, every arrangement not smaller than the list is reached. -/
theorem mem_arrangementsFrom {fuel : Nat} (hfuel : (greaterArrangements is).card ≤ fuel)
    (hperm : js.Perm is) (hle : (compare is js).isLE) : js ∈ arrangementsFrom fuel is := by
  induction fuel generalizing is with
  | zero =>
      have hnone : greaterArrangements is = ∅ := Finset.card_eq_zero.mp (Nat.le_zero.mp hfuel)
      rcases Ordering.isLE_iff_eq_lt_or_eq_eq.mp hle with hlt | heq
      · have hmem := mem_greaterArrangements.mpr ⟨hperm, hlt⟩
        rw [hnone] at hmem
        exact absurd hmem (Finset.notMem_empty js)
      · exact List.mem_singleton.mpr (Std.compare_eq_iff_eq.mp heq).symm
  | succ fuel ih =>
      rw [arrangementsFrom, List.mem_cons]
      rcases Ordering.isLE_iff_eq_lt_or_eq_eq.mp hle with hlt | heq
      · right
        split
        · next hnext =>
            have hmax := isLE_of_descending (descending_of_nextArrangement? hnext) hperm
            exact absurd hlt (Std.OrientedCmp.not_lt_of_isLE hmax)
        · next ks hnext =>
            have hcard := card_greaterArrangements_lt hnext
            exact ih (by omega) (hperm.trans (perm_of_nextArrangement? hnext).symm)
              (isLE_of_nextArrangement? hnext hperm hlt)
      · exact .inl (Std.compare_eq_iff_eq.mp heq).symm

theorem pairwise_arrangementsFrom (fuel : Nat) (is : List Index) :
    (arrangementsFrom fuel is).Pairwise fun js ks => compare js ks = .lt := by
  induction fuel generalizing is with
  | zero => exact List.pairwise_singleton _ is
  | succ fuel ih =>
      rw [arrangementsFrom]
      split
      · exact List.pairwise_singleton _ is
      · next js hnext =>
          refine (ih js).cons fun ks hks => ?_
          exact Std.TransCmp.lt_of_lt_of_isLE (lt_of_nextArrangement? hnext)
            (isLE_of_mem_arrangementsFrom hks).2

/-- The arrangements of a list are its permutations. -/
theorem mem_arrangements : js ∈ arrangements is ↔ js.Perm is := by
  have hsort : (sortBy compare is).Perm is := sortBy_perm compare is
  constructor
  · exact fun h => (isLE_of_mem_arrangementsFrom h).1.trans hsort
  · intro h
    have hperm : js.Perm (sortBy compare is) := h.trans hsort.symm
    exact mem_arrangementsFrom (card_greaterArrangements_sortBy_le is) hperm
      (isLE_of_ascending (pairwise_sortBy is) hperm)

/-- The arrangements of a list stand in strictly ascending order. -/
theorem pairwise_arrangements (is : List Index) :
    (arrangements is).Pairwise fun js ks => compare js ks = .lt :=
  pairwise_arrangementsFrom _ _

theorem nodup_arrangements (is : List Index) : (arrangements is).Nodup :=
  (pairwise_arrangements is).imp fun h he => by simp [he] at h

/-- Lists with the same members have the same arrangements. -/
theorem arrangements_congr (h : is.Perm js) : arrangements is = arrangements js := by
  rw [arrangements, arrangements, sortBy_congr h, arrangementBound_eq_factorial, h.length_eq,
    arrangementBound_eq_factorial]

end SecondQuant
