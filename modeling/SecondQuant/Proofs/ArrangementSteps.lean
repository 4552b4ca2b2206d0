import SecondQuant.Proofs.AntisymmetricExpansion

/-!
# The next arrangement in place

The next arrangement can be made by place: the last place whose entry is smaller than the one behind
it is the pivot; a scan from the end finds the last entry greater than the pivot's; the two change
places, and what stands behind the pivot is turned round.  The scan never reaches the pivot, so no
place outside the list is read, and the step is `nextArrangement?`.  Taken again and again from the
ascending list on, it comes to an end and meets every arrangement once.

* `pivot?`, `scanDown?`, `advance?` — the step by place; `none` is a place outside the list.
* `exists_scanDown?_of_pivot?` — the scan stops above the pivot.
* `advance?_eq` — the step by place is the next arrangement, or says that there is none.
* `IsNextArrangement`, `IsLastArrangement` — the least of the greater arrangements, and a list that
  has none.
* `Visits`, `visits_arrangements` — the loop of such steps, and the lists that it visits.
* `arrangements_enumerated` — **the steps enumerate the arrangements of a list**.
-/

namespace SecondQuant

variable {i k : Index} {is js v w before behind : List Index} {p j n : ℕ}

/-! ## The step by place -/

/-- Whether an entry is smaller than the one behind it. -/
def ascendsAt (v : List Index) (p : ℕ) : Bool :=
  match v[p]?, v[p + 1]? with
  | some i, some k => compare i k == .lt
  | _, _ => false

/-- The last place before place `n` whose entry is smaller than the one behind it. -/
def lastAscent? (v : List Index) : ℕ → Option ℕ
  | 0 => none
  | p + 1 => if ascendsAt v p then some p else lastAscent? v p

/-- The place whose entry the step changes first. -/
def pivot? (v : List Index) : Option ℕ :=
  lastAscent? v (v.length - 1)

/-- Goes down through the places before `n` to the first one whose entry is greater than `i`.  There
is no answer if the scan leaves the list. -/
def scanDown? (i : Index) (v : List Index) : ℕ → Option ℕ
  | 0 => none
  | j + 1 => do
      let k ← v[j]?
      if (compare k i).isLE then scanDown? i v j else some j

/-- The list with the entries `i` and `k` of two places exchanged, and all entries behind the first
of them turned round. -/
def exchanged (v : List Index) (p j : ℕ) (i k : Index) : List Index :=
  ((v.set p k).set j i).take (p + 1) ++ (((v.set p k).set j i).drop (p + 1)).reverse

/-- One step: whether there is a next arrangement, and the list after the step.  There is no answer
if the step reads a place outside the list. -/
def advance? (v : List Index) : Option (Bool × List Index) :=
  match pivot? v with
  | none => some (false, v)
  | some p => do
      let i ← v[p]?
      let j ← scanDown? i v v.length
      let k ← v[j]?
      some (true, exchanged v p j i k)

/-! ## What the next arrangement is -/

/-- Whether no arrangement of a list is greater. -/
def IsLastArrangement (v : List Index) : Prop :=
  ∀ u : List Index, u.Perm v → (compare u v).isLE

/-- Whether a list is the least of the arrangements that are greater than another one. -/
structure IsNextArrangement (v w : List Index) : Prop where
  perm : w.Perm v
  lt : compare v w = .lt
  least : ∀ u : List Index, u.Perm v → compare v u = .lt → (compare w u).isLE

theorem isNextArrangement_of_nextArrangement? (h : nextArrangement? v = some w) :
    IsNextArrangement v w :=
  ⟨perm_of_nextArrangement? h, lt_of_nextArrangement? h, fun _ => isLE_of_nextArrangement? h⟩

/-- Only the last arrangement has no next one. -/
theorem nextArrangement?_eq_none_iff : nextArrangement? v = none ↔ IsLastArrangement v := by
  constructor
  · exact fun h _ hperm => isLE_of_descending (descending_of_nextArrangement? h) hperm
  · intro h
    cases hnext : nextArrangement? v with
    | none => rfl
    | some w =>
        have hlt := lt_of_nextArrangement? hnext
        have hle := h w (perm_of_nextArrangement? hnext)
        exact absurd hlt (Std.OrientedCmp.not_lt_of_isLE hle)

instance (v : List Index) : Decidable (IsLastArrangement v) :=
  decidable_of_iff _ nextArrangement?_eq_none_iff

theorem nextArrangement?_eq_none_of_descending (h : v.Pairwise fun i k => (compare k i).isLE) :
    nextArrangement? v = none :=
  nextArrangement?_eq_none_iff.mpr fun _ hperm => isLE_of_descending h hperm

/-! ## The pivot -/

theorem ascendsAt_eq_true :
    ascendsAt v p = true ↔ ∃ i k, v[p]? = some i ∧ v[p + 1]? = some k ∧ compare i k = .lt := by
  unfold ascendsAt
  split
  · next i k hi hk => simp [hi, hk]
  · next h =>
      refine iff_of_false Bool.false_ne_true ?_
      rintro ⟨i, k, hi, hk, -⟩
      exact h i k hi hk

theorem ascendsAt_drop (m : ℕ) : ascendsAt (v.drop m) p = ascendsAt v (m + p) := by
  rw [ascendsAt, ascendsAt, List.getElem?_drop, List.getElem?_drop, Nat.add_assoc]

/-- The last entry of a list has none behind it. -/
theorem ascendsAt_of_length_le (h : v.length ≤ p + 1) : ascendsAt v p = false := by
  rw [Bool.eq_false_iff, Ne, ascendsAt_eq_true]
  rintro ⟨i, k, -, hk, -⟩
  rw [List.getElem?_eq_none h] at hk
  cases hk

theorem lastAscent?_eq_none (h : lastAscent? v n = none) : ∀ q < n, ascendsAt v q = false := by
  induction n with
  | zero => exact fun q hq => absurd hq q.not_lt_zero
  | succ n ih =>
      rw [lastAscent?] at h
      split at h
      · cases h
      · next hn =>
          intro q hq
          rcases Nat.lt_succ_iff_lt_or_eq.mp hq with hq | rfl
          · exact ih h q hq
          · exact Bool.eq_false_iff.mpr hn

theorem lastAscent?_eq_some (h : lastAscent? v n = some p) :
    ascendsAt v p = true ∧ ∀ q, p < q → q < n → ascendsAt v q = false := by
  induction n with
  | zero => cases h
  | succ n ih =>
      rw [lastAscent?] at h
      split at h
      · next hn =>
          cases h
          exact ⟨hn, fun q hpq hq => by omega⟩
      · next hn =>
          obtain ⟨hp, hbehind⟩ := ih h
          refine ⟨hp, fun q hpq hq => ?_⟩
          rcases Nat.lt_succ_iff_lt_or_eq.mp hq with hq | rfl
          · exact hbehind q hpq hq
          · exact Bool.eq_false_iff.mpr hn

/-- A list in which no entry is smaller than the one behind it descends. -/
theorem descending_of_ascendsAt (h : ∀ q, ascendsAt v q = false) :
    v.Pairwise fun i k => (compare k i).isLE := by
  induction v with
  | nil => exact List.Pairwise.nil
  | cons i v ih =>
      have htail := ih fun q => h (q + 1)
      refine htail.cons fun k hk => ?_
      obtain _ | ⟨j, v⟩ := v
      · cases hk
      · have hij : ¬compare i j = .lt := by simpa [ascendsAt] using h 0
        have hji : (compare j i).isLE :=
          Decidable.of_not_not (mt Std.OrientedCmp.lt_of_not_isLE hij)
        rcases List.mem_cons.mp hk with rfl | hk
        · exact hji
        · exact Std.TransCmp.isLE_trans (List.rel_of_pairwise_cons htail hk) hji

theorem descending_of_pivot?_eq_none (h : pivot? v = none) :
    v.Pairwise fun i k => (compare k i).isLE := by
  refine descending_of_ascendsAt fun q => ?_
  by_cases hq : q < v.length - 1
  · exact lastAscent?_eq_none h q hq
  · exact ascendsAt_of_length_le (by omega)

/-- The pivot is smaller than the entry behind it, and what stands behind the pivot descends. -/
theorem of_pivot?_eq_some (h : pivot? v = some p) :
    (∃ i k, v[p]? = some i ∧ v[p + 1]? = some k ∧ compare i k = .lt) ∧
      (v.drop (p + 1)).Pairwise fun i k => (compare k i).isLE := by
  obtain ⟨hp, hbehind⟩ := lastAscent?_eq_some h
  refine ⟨ascendsAt_eq_true.mp hp, descending_of_ascendsAt fun q => ?_⟩
  rw [ascendsAt_drop]
  by_cases hq : p + 1 + q < v.length - 1
  · exact hbehind _ (by omega) hq
  · exact ascendsAt_of_length_le (by omega)

/-! ## The scan -/

/-- The scan goes down to the last entry that is greater than `i`. -/
theorem scanDown?_eq_some (hn : n ≤ v.length) (hj : j < n) (hk : v[j]? = some k)
    (hik : compare i k = .lt) (hbehind : ∀ q x, j < q → v[q]? = some x → (compare x i).isLE) :
    scanDown? i v n = some j := by
  induction n with
  | zero => exact absurd hj j.not_lt_zero
  | succ n ih =>
      rcases Nat.lt_succ_iff_lt_or_eq.mp hj with hjn | rfl
      · have hx : v[n]? = some v[n] := List.getElem?_eq_getElem hn
        rw [scanDown?, hx]
        exact (if_pos (hbehind n _ hjn hx)).trans (ih (by omega) hjn)
      · rw [scanDown?, hk]
        exact if_neg fun hki => Std.OrientedCmp.not_lt_of_isLE hki hik

/-! ## What a step finds -/

/-- A list with a pivot: what stands behind the pivot descends, and its last entry greater than the
pivot's is the one that `splitLastGreater?` finds. -/
theorem exists_split_of_pivot? (h : pivot? v = some p) :
    ∃ front i before k behind, v = front ++ i :: (before ++ k :: behind) ∧ front.length = p ∧
      ((before ++ k :: behind).Pairwise fun i k => (compare k i).isLE) ∧
      splitLastGreater? i (before ++ k :: behind) = some (before, k, behind) := by
  obtain ⟨⟨i, m, hi, hm, him⟩, hdesc⟩ := of_pivot?_eq_some h
  obtain ⟨hp, rfl⟩ := List.getElem?_eq_some_iff.mp hi
  have hmem : m ∈ v.drop (p + 1) := by
    refine List.mem_of_getElem? (i := 0) ?_
    rwa [List.getElem?_drop, Nat.add_zero]
  cases hsplit : splitLastGreater? v[p] (v.drop (p + 1)) with
  | none =>
      have hle := isLE_of_splitLastGreater?_eq_none hsplit m hmem
      exact absurd him (Std.OrientedCmp.not_lt_of_isLE hle)
  | some s =>
      obtain ⟨before, k, behind⟩ := s
      have hdrop := (splitLastGreater?_eq_some hsplit).1
      refine ⟨v.take p, v[p], before, k, behind, ?_, List.length_take_of_le hp.le, ?_, ?_⟩
      · rw [← hdrop, ← List.drop_eq_getElem_cons hp, List.take_append_drop]
      · rwa [← hdrop]
      · rwa [← hdrop]

/-- The scan of a list with a pivot stops at the last entry that is greater than the pivot's. -/
theorem scanDown?_of_split {front : List Index}
    (h : splitLastGreater? i (before ++ k :: behind) = some (before, k, behind)) :
    scanDown? i (front ++ i :: (before ++ k :: behind))
        (front ++ i :: (before ++ k :: behind)).length =
      some ((front ++ i :: before).length) := by
  obtain ⟨-, hik, hbehind⟩ := splitLastGreater?_eq_some h
  have hlist : front ++ i :: (before ++ k :: behind) = (front ++ i :: before) ++ k :: behind := by
    simp
  rw [hlist]
  refine scanDown?_eq_some (k := k) le_rfl (by simp) ?_ hik fun q x hq hx => ?_
  · rw [List.getElem?_append_right le_rfl, Nat.sub_self, List.getElem?_cons_zero]
  · rw [List.getElem?_append_right hq.le, List.getElem?_cons, if_neg (by omega)] at hx
    exact hbehind x (List.mem_of_getElem? hx)

/-- Entries exchanged and turned round, on the parts of the list. -/
theorem exchanged_of_split {front : List Index} :
    exchanged (front ++ i :: (before ++ k :: behind)) front.length (front ++ i :: before).length
        i k =
      front ++ k :: (before ++ i :: behind).reverse := by
  have hset : ((front ++ i :: (before ++ k :: behind)).set front.length k).set
      (front ++ i :: before).length i = (front ++ [k]) ++ (before ++ i :: behind) := by
    simp
  have hlen : (front ++ [k]).length = front.length + 1 := by simp
  rw [exchanged, hset, ← hlen, List.take_left, List.drop_left, List.append_assoc]
  rfl

theorem nextArrangement?_of_split {front : List Index}
    (hdesc : (before ++ k :: behind).Pairwise fun i k => (compare k i).isLE)
    (h : splitLastGreater? i (before ++ k :: behind) = some (before, k, behind)) :
    nextArrangement? (front ++ i :: (before ++ k :: behind)) =
      some (front ++ k :: (before ++ i :: behind).reverse) := by
  induction front with
  | nil =>
      rw [List.nil_append, nextArrangement?, nextArrangement?_eq_none_of_descending hdesc, h]
      rfl
  | cons j front ih => rw [List.cons_append, nextArrangement?, ih, List.cons_append]

/-! ## The step is the next arrangement -/

/-- The pivot of a list is a place in it, and the scan stops above the pivot. -/
theorem exists_scanDown?_of_pivot? (h : pivot? v = some p) :
    ∃ i j, v[p]? = some i ∧ scanDown? i v v.length = some j ∧ p < j ∧ j < v.length := by
  obtain ⟨front, i, before, k, behind, rfl, rfl, -, hsplit⟩ := exists_split_of_pivot? h
  exact ⟨i, _, by simp, scanDown?_of_split hsplit, by simp, by simp⟩

/-- The step by place always has an answer: the next arrangement, or the list as it was. -/
theorem advance?_eq (v : List Index) :
    advance? v = some ((nextArrangement? v).elim (false, v) fun w => (true, w)) := by
  rw [advance?]
  split
  · next h =>
      rw [nextArrangement?_eq_none_of_descending (descending_of_pivot?_eq_none h)]
      rfl
  · next p h =>
      obtain ⟨front, i, before, k, behind, rfl, rfl, hdesc, hsplit⟩ := exists_split_of_pivot? h
      rw [nextArrangement?_of_split hdesc hsplit]
      have hi : (front ++ i :: (before ++ k :: behind))[front.length]? = some i := by simp
      have hk :
          (front ++ i :: (before ++ k :: behind))[(front ++ i :: before).length]? = some k := by
        simp
      simp only [hi, hk, scanDown?_of_split hsplit, exchanged_of_split, Option.bind_eq_bind,
        Option.bind_some, Option.elim_some]

theorem advance?_of_eq_none (h : nextArrangement? v = none) : advance? v = some (false, v) := by
  rw [advance?_eq, h]
  rfl

theorem advance?_of_eq_some (h : nextArrangement? v = some w) : advance? v = some (true, w) := by
  rw [advance?_eq, h]
  rfl

theorem exists_advance?_of_not_isLast (h : ¬IsLastArrangement v) :
    ∃ w, advance? v = some (true, w) ∧ IsNextArrangement v w := by
  obtain ⟨w, hnext⟩ := Option.ne_none_iff_exists'.mp (mt nextArrangement?_eq_none_iff.mp h)
  exact ⟨w, advance?_of_eq_some hnext, isNextArrangement_of_nextArrangement? hnext⟩

/-! ## The loop -/

/-- The loop that visits a list and takes a step, until a step says that there is no next
arrangement; and the lists that it visits, in order. -/
inductive Visits : List Index → List (List Index) → Prop
  | stop {v w : List Index} (h : advance? v = some (false, w)) : Visits v [v]
  | step {v w : List Index} {vs : List (List Index)} (h : advance? v = some (true, w))
      (rest : Visits w vs) : Visits v (v :: vs)

theorem Visits.unique {vs ws : List (List Index)} (h : Visits v vs) (h' : Visits v ws) :
    vs = ws := by
  induction h generalizing ws with
  | stop h =>
      cases h' with
      | stop _ => rfl
      | step h' _ => cases h.symm.trans h'
  | step h _ ih =>
      cases h' with
      | stop h' => cases h.symm.trans h'
      | step h' rest =>
          cases h.symm.trans h'
          rw [ih rest]

/-- With enough fuel, the lists of `arrangementsFrom` are those that the loop visits: each step
leaves fewer greater arrangements. -/
theorem visits_arrangementsFrom {fuel : ℕ} (hfuel : (greaterArrangements v).card ≤ fuel) :
    Visits v (arrangementsFrom fuel v) := by
  induction fuel generalizing v with
  | zero =>
      cases hnext : nextArrangement? v with
      | none => exact .stop (advance?_of_eq_none hnext)
      | some w =>
          have hcard := card_greaterArrangements_lt hnext
          omega
  | succ fuel ih =>
      rw [arrangementsFrom]
      split
      · next hnext => exact .stop (advance?_of_eq_none hnext)
      · next w hnext =>
          have hcard := card_greaterArrangements_lt hnext
          exact .step (advance?_of_eq_some hnext) (ih (by omega))

/-- From the ascending list on, the loop ends and visits the arrangements. -/
theorem visits_arrangements (is : List Index) :
    Visits (sortBy compare is) (arrangements is) :=
  visits_arrangementsFrom (card_greaterArrangements_sortBy_le is)

theorem length_arrangements (h : is.Nodup) : (arrangements is).length = is.length.factorial := by
  rw [(arrangements_perm h).length_eq, List.length_map, length_permsOfList, List.length_finRange]

/-! ## The enumeration -/

/-- **The steps enumerate the arrangements of a list.**  The scan of a step stops above the pivot.
A step leads from a list to the least of its greater arrangements, and says so; it leaves the last
arrangement as it is.  Taken from the ascending list on, the steps come to an end.  They have then
met each arrangement once and nothing else, in ascending order; if the indices are distinct, they
have met as many as there are permutations. -/
theorem arrangements_enumerated :
    (∀ v p, pivot? v = some p →
      ∃ i j, v[p]? = some i ∧ scanDown? i v v.length = some j ∧ p < j ∧ j < v.length) ∧
    (∀ v, advance? v = some ((nextArrangement? v).elim (false, v) fun w => (true, w))) ∧
    (∀ v, IsLastArrangement v → advance? v = some (false, v)) ∧
    (∀ v, ¬IsLastArrangement v → ∃ w, advance? v = some (true, w) ∧ IsNextArrangement v w) ∧
    ∀ is, (∀ vs, Visits (sortBy compare is) vs ↔ vs = arrangements is) ∧
      (∀ js, js ∈ arrangements is ↔ js.Perm is) ∧
      (∀ js, js.Perm is → (arrangements is).count js = 1) ∧
      ((arrangements is).Pairwise fun js ks => compare js ks = .lt) ∧
      (is.Nodup → (arrangements is).length = is.length.factorial) := by
  refine ⟨fun _ _ => exists_scanDown?_of_pivot?, advance?_eq,
    fun _ h => advance?_of_eq_none (nextArrangement?_eq_none_iff.mpr h),
    fun _ => exists_advance?_of_not_isLast, fun is => ⟨fun vs => ?_, fun _ => mem_arrangements,
      fun js h => ?_, pairwise_arrangements is, length_arrangements⟩⟩
  · constructor
    · exact fun h => h.unique (visits_arrangements is)
    · rintro rfl
      exact visits_arrangements is
  · exact List.count_eq_one_of_mem (nodup_arrangements is) (mem_arrangements.mpr h)

/-- Three indices, one of which occurs twice. -/
def repeatedIndex : List Index :=
  [.dummy .general 2, .dummy .general 1, .dummy .general 2]

/-- The arrangement of these indices that descends. -/
def descendingIndices : List Index :=
  [.dummy .general 2, .dummy .general 2, .dummy .general 1]

/-- The middle place is the pivot and the scan stops at the last one; the next arrangement descends
and is the last one, and the loop meets each arrangement once although two indices are equal. -/
theorem arrangements_enumerated_repeatedIndex :
    (pivot? repeatedIndex = some 1 ∧ ∃ i j, repeatedIndex[1]? = some i ∧
      scanDown? i repeatedIndex repeatedIndex.length = some j ∧ 1 < j ∧ j < repeatedIndex.length) ∧
    (¬IsLastArrangement repeatedIndex ∧
      ∃ w, advance? repeatedIndex = some (true, w) ∧ IsNextArrangement repeatedIndex w) ∧
    advance? repeatedIndex = some (true, descendingIndices) ∧
    (IsLastArrangement descendingIndices ∧
      advance? descendingIndices = some (false, descendingIndices)) ∧
    (descendingIndices.Perm repeatedIndex ∧
      (arrangements repeatedIndex).count descendingIndices = 1) ∧
    ((repeatedIndex.take 2).Nodup ∧ (arrangements (repeatedIndex.take 2)).length = 2) := by
  have hpivot : pivot? repeatedIndex = some 1 := by decide
  have hlast : ¬IsLastArrangement repeatedIndex := by decide
  have hdesc : IsLastArrangement descendingIndices := by decide
  have hperm : descendingIndices.Perm repeatedIndex := by decide
  have hnodup : (repeatedIndex.take 2).Nodup := by decide
  obtain ⟨hscan, hstep, hstop, hnext, hloop⟩ := arrangements_enumerated
  exact ⟨⟨hpivot, hscan _ _ hpivot⟩, ⟨hlast, hnext _ hlast⟩, (hstep _).trans (by decide),
    ⟨hdesc, hstop _ hdesc⟩, ⟨hperm, (hloop _).2.2.1 _ hperm⟩, hnodup, (hloop _).2.2.2.2 hnodup⟩

end SecondQuant
