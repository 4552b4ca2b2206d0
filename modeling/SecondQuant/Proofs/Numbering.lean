import Mathlib.Data.List.Nodup
import SecondQuant.Dummy

/-!
# Numbering by first appearance

The table that numbers the dummies of a list is the outcome of one pass over the list: a dummy that
was seen before keeps its number, and a new one gets the next number of its space.  After the pass
the list is numbered, and a numbered list is left alone by another pass; sorting parts of it does
not change that.

* `numberFrom`, `dummyTable_eq_numberFrom` — the pass.
* `Numbered` — every dummy comes after the dummies of its space with smaller numbers.
* `numbered_map_numbering`, `numbering_eq_id` — after the first pass, and in the second one.
* `NumberedAfter.sortBy` — sorting a part of the list.
-/

namespace SecondQuant

/-! ## One pass -/

@[simp] theorem IndexContext.drawn_empty (s : Space) : IndexContext.empty.drawn s = 0 := by
  cases s <;> rfl

/-- One draw adds the next number of its space to the numbers given out, and no other. -/
theorem IndexContext.le_drawn_record {c : IndexContext} {s t : Space} {n : Nat} :
    n ≤ (c.record s).drawn t ↔ n ≤ c.drawn t ∨ t = s ∧ n = c.drawn s + 1 := by
  by_cases h : t = s
  · subst h
    rw [drawn_record_self, Nat.le_succ_iff]
    simp
  · simp [drawn_record_of_ne c h, h]

/-- The table of the dummies of a list that are not seen yet; the context counts the numbers that
have been given. -/
def numberFrom (c : IndexContext) (seen : List Index) : List Index → List (Index × Index)
  | [] => []
  | i :: is =>
      if i.external = true ∨ i ∈ seen then numberFrom c seen is
      else (i, .dummy i.space (c.drawn i.space + 1)) ::
        numberFrom (c.record i.space) (i :: seen) is

/-- The table that gives each member of a list the next number of its space. -/
def freshTable (c : IndexContext) (ds : List Index) : List (Index × Index) :=
  ds.zip ((Drawing.drawEach (ds.map Index.space)).run c).1

theorem freshTable_cons (c : IndexContext) (d : Index) (ds : List Index) :
    freshTable c (d :: ds) =
      (d, .dummy d.space (c.drawn d.space + 1)) :: freshTable (c.record d.space) ds := rfl

/-- A pass gives the next numbers to the distinct dummies that are not seen yet. -/
theorem numberFrom_eq (c : IndexContext) (seen is : List Index) :
    numberFrom c seen is =
      freshTable c (is.filter fun i => !i.external && decide (i ∉ seen)).eraseDups := by
  induction is generalizing c seen with
  | nil => rfl
  | cons i is ih =>
      rw [numberFrom, List.filter_cons]
      by_cases hi : i.external = true ∨ i ∈ seen
      · have hdrop : ¬(!i.external && decide (i ∉ seen)) = true := by
          rcases hi with h | h <;> simp [h]
        rw [if_pos hi, if_neg hdrop, ih]
      · have hkeep : (!i.external && decide (i ∉ seen)) = true := by
          simpa using hi
        have hseen : (is.filter fun j => !j.external && decide (j ∉ i :: seen)) =
            (is.filter fun j => !j.external && decide (j ∉ seen)).filter fun j => !j == i := by
          rw [List.filter_filter]
          refine List.filter_congr fun j _ => ?_
          by_cases hj : j = i <;> simp [hj]
        rw [if_neg hi, if_pos hkeep, ih, List.eraseDups_cons, freshTable_cons, hseen]

/-- The table of a list is the outcome of a pass from the beginning. -/
theorem dummyTable_eq_numberFrom (is : List Index) :
    dummyTable is = numberFrom .empty [] is := by
  have hall : (is.filter fun i => !i.external && decide (i ∉ ([] : List Index))) =
      is.filter fun i => !i.external := List.filter_congr fun i _ => by simp
  rw [numberFrom_eq, hall]
  rfl

/-- A pass enters dummies only, and none that was seen before. -/
theorem of_mem_numberFrom {c : IndexContext} {seen is : List Index} {x : Index × Index}
    (h : x ∈ numberFrom c seen is) : x.1.external = false ∧ x.1 ∉ seen ∧ x.1 ∈ is := by
  induction is generalizing c seen with
  | nil => cases h
  | cons i is ih =>
      rw [numberFrom] at h
      by_cases hi : i.external = true ∨ i ∈ seen
      · rw [if_pos hi] at h
        obtain ⟨hx, hseen, hmem⟩ := ih h
        exact ⟨hx, hseen, List.mem_cons_of_mem i hmem⟩
      · rw [if_neg hi] at h
        simp only [not_or, Bool.not_eq_true] at hi
        rcases List.mem_cons.mp h with rfl | h
        · exact ⟨hi.1, hi.2, List.mem_cons_self⟩
        · obtain ⟨hx, hseen, hmem⟩ := ih h
          exact ⟨hx, fun hm => hseen (List.mem_cons_of_mem i hm), List.mem_cons_of_mem i hmem⟩

/-- A pass enters every dummy once. -/
theorem nodup_numberFrom (c : IndexContext) (seen is : List Index) :
    ((numberFrom c seen is).map Prod.fst).Nodup := by
  induction is generalizing c seen with
  | nil => exact List.nodup_nil
  | cons i is ih =>
      rw [numberFrom]
      by_cases hi : i.external = true ∨ i ∈ seen
      · rw [if_pos hi]
        exact ih c seen
      · rw [if_neg hi, List.map_cons]
        refine List.nodup_cons.mpr ⟨?_, ih _ _⟩
        intro hm
        obtain ⟨x, hx, hxi⟩ := List.mem_map.mp hm
        have hout : x.1 ∉ i :: seen := (of_mem_numberFrom hx).2.1
        exact hout (hxi ▸ List.mem_cons_self)

/-! ## The renaming of the table -/

/-- The renaming that numbers the dummies of a list. -/
def numbering (is : List Index) : Renaming :=
  .ofTable (dummyTable is)

theorem ofTable_of_mem {table : List (Index × Index)} (hnodup : (table.map Prod.fst).Nodup)
    {i j : Index} (h : (i, j) ∈ table) : Renaming.ofTable table i = j := by
  have hmem : (i, j) ∈ table.reverse := List.mem_reverse.mpr h
  have hnodup : (table.reverse.map Prod.fst).Nodup := by
    rwa [List.map_reverse, List.nodup_reverse]
  cases hl : table.reverse.lookup i with
  | none =>
      have hne := List.lookup_eq_none_iff.mp hl _ hmem
      simp at hne
  | some k =>
      obtain ⟨l₁, l₂, hl', _⟩ := List.lookup_eq_some_iff.mp hl
      have hk : (i, k) ∈ table.reverse := by simp [hl']
      have hpair : (i, k) = (i, j) := List.inj_on_of_nodup_map hnodup hk hmem rfl
      rw [Renaming.ofTable, hl, Option.getD_some]
      exact (Prod.mk.inj hpair).2

/-- An index that a table replaces has an entry. -/
theorem mem_of_ofTable_ne {table : List (Index × Index)} {i : Index}
    (h : Renaming.ofTable table i ≠ i) : (i, Renaming.ofTable table i) ∈ table := by
  unfold Renaming.ofTable at h ⊢
  cases hl : table.reverse.lookup i with
  | none => simp [hl] at h
  | some j =>
      obtain ⟨l₁, l₂, hl', _⟩ := List.lookup_eq_some_iff.mp hl
      rw [← List.mem_reverse, hl', Option.getD_some]
      simp

theorem mem_numberFrom_of_ne {is : List Index} {i : Index} (h : numbering is i ≠ i) :
    (i, numbering is i) ∈ numberFrom .empty [] is := by
  rw [← dummyTable_eq_numberFrom]
  exact mem_of_ofTable_ne h

theorem numbering_external {is : List Index} {i : Index} (h : i.external = true) :
    numbering is i = i := by
  by_contra hne
  have hdummy : i.external = false := (of_mem_numberFrom (mem_numberFrom_of_ne hne)).1
  simp [hdummy] at h

theorem numbering_of_mem {is : List Index} {i j : Index} (h : (i, j) ∈ numberFrom .empty [] is) :
    numbering is i = j := by
  rw [← dummyTable_eq_numberFrom] at h
  refine ofTable_of_mem ?_ h
  rw [dummyTable_eq_numberFrom]
  exact nodup_numberFrom .empty [] is

/-! ## Numbered lists -/

/-- Whether each dummy of a list comes after all dummies of its space with smaller numbers, some of
which may have been seen before the list. -/
def NumberedAfter (seen : List Index) : List Index → Prop
  | [] => True
  | i :: is =>
      (i.external = false → 1 ≤ i.number ∧
        ∀ n, 1 ≤ n → n < i.number → Index.dummy i.space n ∈ seen) ∧
      NumberedAfter (i :: seen) is

/-- Whether each dummy of a list comes after all dummies of its space with smaller numbers. -/
abbrev Numbered (is : List Index) : Prop := NumberedAfter [] is

theorem NumberedAfter.mono {seen seen' is : List Index} (h : NumberedAfter seen is)
    (hs : ∀ s n, Index.dummy s n ∈ seen → Index.dummy s n ∈ seen') : NumberedAfter seen' is := by
  induction is generalizing seen seen' with
  | nil => trivial
  | cons i is ih =>
      refine ⟨fun hi => ⟨(h.1 hi).1, fun n h1 hn => hs _ _ ((h.1 hi).2 n h1 hn)⟩, ih h.2 ?_⟩
      intro s n hm
      rcases List.mem_cons.mp hm with he | hm
      · exact he ▸ List.mem_cons_self
      · exact List.mem_cons_of_mem i (hs s n hm)

theorem numberedAfter_append {seen is js : List Index} :
    NumberedAfter seen (is ++ js) ↔
      NumberedAfter seen is ∧ NumberedAfter (is.reverse ++ seen) js := by
  induction is generalizing seen with
  | nil => simp [NumberedAfter]
  | cons i is ih =>
      rw [List.cons_append, NumberedAfter, NumberedAfter, ih, List.reverse_cons, List.append_assoc,
        List.singleton_append, and_assoc]

/-- What a pass gives out is numbered. -/
theorem numberedAfter_map {c : IndexContext} {seen given is : List Index} {σ : Renaming}
    (hgiven : ∀ s n, 1 ≤ n → n ≤ c.drawn s → Index.dummy s n ∈ given)
    (hseen : ∀ i ∈ seen, ∃ s n, σ i = .dummy s n ∧ 1 ≤ n ∧ n ≤ c.drawn s)
    (hσ : ∀ i j, (i, j) ∈ numberFrom c seen is → σ i = j)
    (hext : ∀ i, i.external = true → σ i = i) : NumberedAfter given (is.map σ) := by
  -- Along the list, the numbers that have been given out are those up to the count of the context.
  induction is generalizing c seen given with
  | nil => trivial
  | cons i is ih =>
      have hmore : ∀ s n, 1 ≤ n → n ≤ c.drawn s → Index.dummy s n ∈ σ i :: given :=
        fun s n h1 hn => List.mem_cons_of_mem _ (hgiven s n h1 hn)
      rw [List.map_cons, NumberedAfter]
      by_cases hi : i.external = true ∨ i ∈ seen
      · rw [numberFrom, if_pos hi] at hσ
        refine ⟨fun hdummy => ?_, ih hmore hseen hσ⟩
        rcases hi with hi | hi
        · rw [hext i hi, hi] at hdummy
          cases hdummy
        · obtain ⟨s, n, hn, h1, hle⟩ := hseen i hi
          rw [hn]
          exact ⟨h1, fun k h1 hk => hgiven s k h1 (Nat.le_trans (Nat.le_of_lt hk) hle)⟩
      · rw [numberFrom, if_neg hi] at hσ
        have hnew : σ i = .dummy i.space (c.drawn i.space + 1) := hσ i _ List.mem_cons_self
        have hrest : ∀ j k, (j, k) ∈ numberFrom (c.record i.space) (i :: seen) is → σ j = k :=
          fun j k hm => hσ j k (List.mem_cons_of_mem _ hm)
        rw [hnew] at hmore ⊢
        constructor
        · intro _
          exact ⟨Nat.le_add_left 1 _, fun k h1 hk => hgiven _ k h1 (Nat.lt_succ_iff.mp hk)⟩
        · refine ih ?_ ?_ hrest
          · intro s n h1 hn
            rcases IndexContext.le_drawn_record.mp hn with hle | ⟨rfl, rfl⟩
            · exact hmore s n h1 hle
            · exact List.mem_cons_self
          · intro j hj
            rcases List.mem_cons.mp hj with rfl | hj
            · refine ⟨j.space, _, hnew, Nat.le_add_left 1 _, ?_⟩
              exact IndexContext.le_drawn_record.mpr (.inr ⟨rfl, rfl⟩)
            · obtain ⟨s, n, hn, h1, hle⟩ := hseen j hj
              exact ⟨s, n, hn, h1, IndexContext.le_drawn_record.mpr (.inl hle)⟩

theorem numbered_map_numbering (is : List Index) : Numbered (is.map (numbering is)) := by
  have htable : ∀ i j, (i, j) ∈ numberFrom .empty [] is → numbering is i = j :=
    fun _ _ => numbering_of_mem
  refine numberedAfter_map ?_ (List.forall_mem_nil _) htable fun _ => numbering_external
  intro s n h1 hn
  have hzero := IndexContext.drawn_empty s
  omega

/-- A new dummy that has all smaller numbers before it has the next number of its space. -/
theorem dummy_eq_of_new {c : IndexContext} {seen : List Index} {i : Index}
    (hseen : ∀ s n, Index.dummy s n ∈ seen ↔ 1 ≤ n ∧ n ≤ c.drawn s) (hdummy : i.external = false)
    (hnew : i ∉ seen) (h : 1 ≤ i.number ∧
      ∀ n, 1 ≤ n → n < i.number → Index.dummy i.space n ∈ seen) :
    i = .dummy i.space (c.drawn i.space + 1) := by
  obtain ⟨hpos, hsmaller⟩ := h
  have hself : i = .dummy i.space i.number := by rw [Index.dummy, ← hdummy]
  have hlater : ¬(1 ≤ i.number ∧ i.number ≤ c.drawn i.space) := by
    rwa [← hseen, ← hself]
  have hlast : 1 < i.number → i.number - 1 ≤ c.drawn i.space := fun h1 =>
    ((hseen _ _).mp (hsmaller (i.number - 1) (by omega) (by omega))).2
  have hnumber : i.number = c.drawn i.space + 1 := by omega
  rw [← hnumber]
  exact hself

/-- A pass over a numbered list gives every dummy the number that it has. -/
theorem eq_of_mem_numberFrom {c : IndexContext} {seen is : List Index}
    (hseen : ∀ s n, Index.dummy s n ∈ seen ↔ 1 ≤ n ∧ n ≤ c.drawn s) (h : NumberedAfter seen is)
    {i j : Index} (hm : (i, j) ∈ numberFrom c seen is) : j = i := by
  -- Along the list, the dummies seen are those whose numbers the context has given out.
  induction is generalizing c seen with
  | nil => cases hm
  | cons k is ih =>
      rw [numberFrom] at hm
      by_cases hk : k.external = true ∨ k ∈ seen
      · rw [if_pos hk] at hm
        refine ih hseen (h.2.mono ?_) hm
        intro s n hmem
        rcases List.mem_cons.mp hmem with he | hmem
        · rcases hk with hk | hk
          · simp [← he, Index.dummy] at hk
          · exact he ▸ hk
        · exact hmem
      · rw [if_neg hk] at hm
        simp only [not_or, Bool.not_eq_true] at hk
        have hnext : k = .dummy k.space (c.drawn k.space + 1) :=
          dummy_eq_of_new hseen hk.1 hk.2 (h.1 hk.1)
        rcases List.mem_cons.mp hm with he | hm
        · obtain ⟨rfl, rfl⟩ := Prod.mk.inj he
          exact hnext.symm
        · refine ih ?_ h.2 hm
          intro s n
          have hk' : Index.dummy s n = k ↔ s = k.space ∧ n = c.drawn k.space + 1 := by
            rw [hnext]
            simp [Index.dummy]
          rw [List.mem_cons, hseen, IndexContext.le_drawn_record, hk']
          constructor
          · rintro (⟨hs, rfl⟩ | ⟨h1, hle⟩)
            · exact ⟨Nat.le_add_left 1 _, .inr ⟨hs, rfl⟩⟩
            · exact ⟨h1, .inl hle⟩
          · rintro ⟨h1, hle | hs⟩
            · exact .inr ⟨h1, hle⟩
            · exact .inl hs

/-- A numbered list is left alone. -/
theorem numbering_eq_id {is : List Index} (h : Numbered is) : numbering is = id := by
  funext i
  by_contra hne
  refine hne (eq_of_mem_numberFrom ?_ h (mem_numberFrom_of_ne hne))
  intro s n
  simp
  omega

/-! ## Sorting a part of a list -/

/-- Whether the dummies of a list have all dummies of their spaces with smaller numbers in the list
or before it. -/
def Complete (seen is : List Index) : Prop :=
  ∀ i ∈ is, i.external = false → 1 ≤ i.number ∧
    ∀ n, 1 ≤ n → n < i.number → Index.dummy i.space n ∈ seen ∨ Index.dummy i.space n ∈ is

theorem NumberedAfter.complete {seen is : List Index} (h : NumberedAfter seen is) :
    Complete seen is := by
  induction is generalizing seen with
  | nil => exact List.forall_mem_nil _
  | cons i is ih =>
      intro j hj hdummy
      rcases List.mem_cons.mp hj with rfl | hj
      · exact ⟨(h.1 hdummy).1, fun n h1 hn => .inl ((h.1 hdummy).2 n h1 hn)⟩
      · obtain ⟨hpos, hsmaller⟩ := ih h.2 j hj hdummy
        refine ⟨hpos, fun n h1 hn => ?_⟩
        rcases hsmaller n h1 hn with hm | hm
        · rcases List.mem_cons.mp hm with he | hm
          · exact .inr (he ▸ List.mem_cons_self)
          · exact .inl hm
        · exact .inr (List.mem_cons_of_mem i hm)

theorem compare_dummy_gt {i : Index} {n : Nat} (h : n < i.number) :
    compare i (Index.dummy i.space n) = .gt := by
  have hcmp : compare i (Index.dummy i.space n) = (compare i.space i.space).then
      ((compare i.number n).then (compare i.external false)) := rfl
  have hspace : compare i.space i.space = .eq := Std.ReflCmp.compare_self
  rw [hcmp, hspace, Nat.compare_eq_gt.mpr h]
  rfl

/-- A complete list in ascending order is numbered. -/
theorem Complete.numberedAfter {seen is : List Index} (h : Complete seen is)
    (hasc : is.Pairwise fun i j => (compare i j).isLE) : NumberedAfter seen is := by
  induction is generalizing seen with
  | nil => trivial
  | cons i is ih =>
      obtain ⟨hi, hasc⟩ := List.pairwise_cons.mp hasc
      refine ⟨fun hdummy => ?_, ih ?_ hasc⟩
      · obtain ⟨hpos, hsmaller⟩ := h i List.mem_cons_self hdummy
        refine ⟨hpos, fun n h1 hn => ?_⟩
        rcases hsmaller n h1 hn with hm | hm
        · exact hm
        · have hle : (compare i (Index.dummy i.space n)).isLE := by
            rcases List.mem_cons.mp hm with he | hm
            · rw [he]
              simp
            · exact hi _ hm
          rw [compare_dummy_gt hn] at hle
          cases hle
      · intro j hj hdummy
        obtain ⟨hpos, hsmaller⟩ := h j (List.mem_cons_of_mem i hj) hdummy
        refine ⟨hpos, fun n h1 hn => ?_⟩
        rcases hsmaller n h1 hn with hm | hm
        · exact .inl (List.mem_cons_of_mem i hm)
        · rcases List.mem_cons.mp hm with he | hm
          · exact .inl (he ▸ List.mem_cons_self)
          · exact .inr hm

/-- Sorting a part of a numbered list leaves it numbered. -/
theorem NumberedAfter.sortBy {seen is : List Index} (h : NumberedAfter seen is) :
    NumberedAfter seen (sortBy compare is) := by
  refine Complete.numberedAfter ?_ (pairwise_sortBy is)
  intro i hi hdummy
  simpa using h.complete i (mem_sortBy.mp hi) hdummy

end SecondQuant
