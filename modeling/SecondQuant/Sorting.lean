/-!
# Stable sorting and merging by a comparison

`sortBy cmp` sorts a list in ascending order and keeps the order of members that `cmp` does not
tell apart.  It is an insertion sort by structural recursion, so closed instances evaluate in
the kernel.

* `sortBy_perm`, `pairwise_sortBy` — sorting only rearranges, and the outcome ascends.
* `sortBy_eq_self` — a list that is already ascending is left alone.
* `sortBy_append` — the first half of a list may be inserted into the sorted second half.
* `filter_sortBy` — members that are not told apart stay in order.
* `unionBy`, `mem_unionBy`, `pairwise_unionBy` — the union of two ascending lists, which ascends.
-/

namespace SecondQuant

variable {α : Type}

/-! ## Definitions -/

/-- Puts `a` in front of the first member that is not smaller than `a`. -/
def insertBy (cmp : α → α → Ordering) (a : α) : List α → List α
  | [] => [a]
  | b :: bs => if (cmp a b).isLE then a :: b :: bs else b :: insertBy cmp a bs

/-- Inserts the members of a list into another one, the last one first. -/
def insertEach (cmp : α → α → Ordering) : List α → List α → List α
  | [], bs => bs
  | a :: as, bs => insertBy cmp a (insertEach cmp as bs)

/-- The members of a list in ascending order, equals in their given order. -/
def sortBy (cmp : α → α → Ordering) : List α → List α
  | [] => []
  | a :: as => insertBy cmp a (sortBy cmp as)

/-- Merges into a list a member and the ones behind it, for which `rest` is called. -/
def unionFrom (cmp : α → α → Ordering) (a : α) (rest : List α → List α) : List α → List α
  | [] => a :: rest []
  | b :: bs =>
      match cmp a b with
      | .lt => a :: rest (b :: bs)
      | .eq => a :: rest bs
      | .gt => b :: unionFrom cmp a rest bs

/-- The union of two ascending lists, each member once. -/
def unionBy (cmp : α → α → Ordering) : List α → List α → List α
  | [], bs => bs
  | a :: as, bs => unionFrom cmp a (unionBy cmp as) bs

/-! ## Sorting rearranges -/

theorem insertBy_perm (cmp : α → α → Ordering) (a : α) :
    ∀ l : List α, (insertBy cmp a l).Perm (a :: l)
  | [] => List.Perm.refl _
  | b :: bs => by
      rw [insertBy]
      split
      · exact List.Perm.refl _
      · exact ((insertBy_perm cmp a bs).cons b).trans (List.Perm.swap a b bs)

theorem sortBy_perm (cmp : α → α → Ordering) : ∀ l : List α, (sortBy cmp l).Perm l
  | [] => List.Perm.refl _
  | a :: as => (insertBy_perm cmp a _).trans ((sortBy_perm cmp as).cons a)

@[simp] theorem length_sortBy (cmp : α → α → Ordering) (l : List α) :
    (sortBy cmp l).length = l.length :=
  (sortBy_perm cmp l).length_eq

@[simp] theorem mem_sortBy {cmp : α → α → Ordering} {a : α} {l : List α} :
    a ∈ sortBy cmp l ↔ a ∈ l :=
  (sortBy_perm cmp l).mem_iff

theorem sortBy_append (cmp : α → α → Ordering) (as bs : List α) :
    sortBy cmp (as ++ bs) = insertEach cmp as (sortBy cmp bs) := by
  induction as with
  | nil => rfl
  | cons a as ih => rw [List.cons_append, sortBy, ih, insertEach]

/-! ## Sorted lists ascend -/

theorem pairwise_insertBy {cmp : α → α → Ordering} [Std.TransCmp cmp] {a : α} {l : List α}
    (h : l.Pairwise fun b c => (cmp b c).isLE) :
    (insertBy cmp a l).Pairwise fun b c => (cmp b c).isLE := by
  induction h with
  | nil => exact List.pairwise_singleton _ a
  | @cons b bs hb hbs ih =>
      rw [insertBy]
      split
      · next hab =>
          refine (hbs.cons hb).cons (List.forall_mem_cons.mpr ⟨hab, fun c hc => ?_⟩)
          exact Std.TransCmp.isLE_trans hab (hb c hc)
      · next hab =>
          refine ih.cons fun c hc => ?_
          rcases List.mem_cons.mp ((insertBy_perm cmp a bs).mem_iff.mp hc) with rfl | hc
          · exact Ordering.isLE_of_eq_lt (Std.OrientedCmp.lt_of_not_isLE hab)
          · exact hb c hc

theorem pairwise_sortBy {cmp : α → α → Ordering} [Std.TransCmp cmp] (l : List α) :
    (sortBy cmp l).Pairwise fun a b => (cmp a b).isLE := by
  induction l with
  | nil => exact List.Pairwise.nil
  | cons a as ih => exact pairwise_insertBy ih

/-! ## Ascending lists are fixed -/

theorem insertBy_eq_cons {cmp : α → α → Ordering} {a : α} {l : List α}
    (h : ∀ b ∈ l, (cmp a b).isLE) : insertBy cmp a l = a :: l := by
  cases l with
  | nil => rfl
  | cons b bs => rw [insertBy, if_pos (h b List.mem_cons_self)]

theorem sortBy_eq_self {cmp : α → α → Ordering} {l : List α}
    (h : l.Pairwise fun a b => (cmp a b).isLE) : sortBy cmp l = l := by
  induction h with
  | nil => rfl
  | cons ha _ ih => rw [sortBy, ih, insertBy_eq_cons ha]

/-! ## Equals stay in order -/

theorem filter_insertBy_of_not {cmp : α → α → Ordering} {p : α → Bool} {a : α}
    (ha : p a = false) (l : List α) : (insertBy cmp a l).filter p = l.filter p := by
  induction l with
  | nil => rw [insertBy, List.filter_cons_of_neg (Bool.eq_false_iff.mp ha)]
  | cons b bs ih =>
      rw [insertBy]
      split
      · rw [List.filter_cons_of_neg (Bool.eq_false_iff.mp ha)]
      · rw [List.filter_cons, List.filter_cons, ih]

theorem filter_insertBy {cmp : α → α → Ordering} {p : α → Bool} {a : α} (ha : p a = true)
    (h : ∀ b, p b = true → (cmp a b).isLE) (l : List α) :
    (insertBy cmp a l).filter p = a :: l.filter p := by
  induction l with
  | nil => rw [insertBy, List.filter_cons_of_pos ha]
  | cons b bs ih =>
      rw [insertBy]
      split
      · rw [List.filter_cons_of_pos ha]
      · next hab =>
          have hb : ¬p b = true := fun hb => hab (h b hb)
          rw [List.filter_cons_of_neg hb, List.filter_cons_of_neg hb, ih]

/-- Members that the comparison does not tell apart stay in their order. -/
theorem filter_sortBy {cmp : α → α → Ordering} {p : α → Bool}
    (h : ∀ a b, p a = true → p b = true → (cmp a b).isLE) (l : List α) :
    (sortBy cmp l).filter p = l.filter p := by
  induction l with
  | nil => rfl
  | cons a as ih =>
      rw [sortBy]
      by_cases ha : p a = true
      · rw [filter_insertBy ha (fun b => h a b ha), ih, List.filter_cons_of_pos ha]
      · rw [filter_insertBy_of_not (Bool.eq_false_iff.mpr ha), ih, List.filter_cons_of_neg ha]

/-! ## Unions -/

theorem mem_unionFrom {cmp : α → α → Ordering} [Std.LawfulEqCmp cmp] {a x : α} {as : List α}
    {rest : List α → List α} (h : ∀ bs, x ∈ rest bs ↔ x ∈ as ∨ x ∈ bs) (bs : List α) :
    x ∈ unionFrom cmp a rest bs ↔ x ∈ a :: as ∨ x ∈ bs := by
  induction bs with
  | nil => simp [unionFrom, h]
  | cons b bs ih =>
      rw [unionFrom]
      split
      · simp only [List.mem_cons, h, or_assoc]
      · next e =>
          obtain rfl : a = b := Std.LawfulEqCmp.eq_of_compare e
          simp only [List.mem_cons, h]
          exact ⟨fun
            | .inl e => .inl (.inl e)
            | .inr (.inl e) => .inl (.inr e)
            | .inr (.inr e) => .inr (.inr e), fun
            | .inl (.inl e) => .inl e
            | .inl (.inr e) => .inr (.inl e)
            | .inr (.inl e) => .inl e
            | .inr (.inr e) => .inr (.inr e)⟩
      · rw [List.mem_cons, ih, List.mem_cons, List.mem_cons, or_left_comm]

/-- The members of a union are those of the two lists. -/
theorem mem_unionBy {cmp : α → α → Ordering} [Std.LawfulEqCmp cmp] {x : α} {as bs : List α} :
    x ∈ unionBy cmp as bs ↔ x ∈ as ∨ x ∈ bs := by
  induction as generalizing bs with
  | nil => simp [unionBy]
  | cons a as ih => exact mem_unionFrom (fun _ => ih) bs

theorem pairwise_unionFrom {cmp : α → α → Ordering} [Std.TransCmp cmp] [Std.LawfulEqCmp cmp]
    {a : α} {as : List α} {rest : List α → List α} (ha : ∀ x ∈ as, cmp a x = .lt)
    (hmem : ∀ {x bs}, x ∈ rest bs ↔ x ∈ as ∨ x ∈ bs)
    (hrest : ∀ bs, (bs.Pairwise fun x y => cmp x y = .lt) →
      (rest bs).Pairwise fun x y => cmp x y = .lt)
    {bs : List α} (hbs : bs.Pairwise fun x y => cmp x y = .lt) :
    (unionFrom cmp a rest bs).Pairwise fun x y => cmp x y = .lt := by
  -- What follows the head comes from one of the two lists, and the head is below both.
  induction hbs with
  | nil =>
      refine (hrest [] .nil).cons fun x hx => ?_
      exact ha x ((hmem.mp hx).resolve_right List.not_mem_nil)
  | @cons b bs hb hbs ih =>
      rw [unionFrom]
      split
      · next hab =>
          refine (hrest _ (hbs.cons hb)).cons fun x hx => ?_
          rcases hmem.mp hx with hx | hx
          · exact ha x hx
          · rcases List.mem_cons.mp hx with rfl | hx
            · exact hab
            · exact Std.TransCmp.lt_trans hab (hb x hx)
      · next hab =>
          obtain rfl : a = b := Std.LawfulEqCmp.eq_of_compare hab
          refine (hrest _ hbs).cons fun x hx => ?_
          exact (hmem.mp hx).elim (ha x) (hb x)
      · next hab =>
          have hba : cmp b a = .lt := Std.OrientedCmp.lt_of_gt hab
          refine ih.cons fun x hx => ?_
          rcases (mem_unionFrom (fun _ => hmem) bs).mp hx with hx | hx
          · rcases List.mem_cons.mp hx with rfl | hx
            · exact hba
            · exact Std.TransCmp.lt_trans hba (ha x hx)
          · exact hb x hx

/-- The union of two strictly ascending lists is strictly ascending. -/
theorem pairwise_unionBy {cmp : α → α → Ordering} [Std.TransCmp cmp] [Std.LawfulEqCmp cmp]
    {as bs : List α} (has : as.Pairwise fun x y => cmp x y = .lt)
    (hbs : bs.Pairwise fun x y => cmp x y = .lt) :
    (unionBy cmp as bs).Pairwise fun x y => cmp x y = .lt := by
  induction has generalizing bs with
  | nil => exact hbs
  | cons ha _ ih => exact pairwise_unionFrom ha mem_unionBy (fun _ => ih) hbs

end SecondQuant
