import SecondQuant.Proofs.IndexSupport
import SecondQuant.Proofs.StagedContraction

/-!
# Relabelling indices in order

A relabelling gives the dummies in use other numbers, keeps their spaces and their order, and leaves
external indices alone.  Everything that sorts indices, tensors, factors or terms gives the same
arrangement before and after, so canonical forms are relabelled letter by letter, without signs.

* `Relabels`, `Relabels.compare_eq` — relabellings of the members of a list.
* `sortBy_map` — sorting before or after a map that keeps comparisons.
* `Tensor.canonical?_rename`, `Word.normal_relabel`, `Word.isCanonical_relabel` — canonical tensors
  and words.
* `WordSum.relabel`, `WordSum.rename_toExpr`, `Expr.words_rename` — canonical sums.
-/

namespace SecondQuant

/-! ## Comparisons under a map -/

section Map

variable {α β : Type} {f : α → β}

theorem insertBy_map {cmp : α → α → Ordering} {cmp' : β → β → Ordering} {a : α} {l : List α}
    (h : ∀ b ∈ l, cmp' (f a) (f b) = cmp a b) :
    insertBy cmp' (f a) (l.map f) = (insertBy cmp a l).map f := by
  induction l with
  | nil => rfl
  | cons b l ih =>
      obtain ⟨hb, hl⟩ := List.forall_mem_cons.mp h
      rw [List.map_cons, insertBy, insertBy, hb, ih hl]
      split
      · rfl
      · rfl

/-- A list may be sorted before or after a map that keeps the comparisons of its members. -/
theorem sortBy_map {cmp : α → α → Ordering} {cmp' : β → β → Ordering} {l : List α}
    (h : ∀ a ∈ l, ∀ b ∈ l, cmp' (f a) (f b) = cmp a b) :
    sortBy cmp' (l.map f) = (sortBy cmp l).map f := by
  induction l with
  | nil => rfl
  | cons a l ih =>
      have hl : ∀ b ∈ l, ∀ c ∈ l, cmp' (f b) (f c) = cmp b c := fun b hb c hc =>
        h b (List.mem_cons_of_mem a hb) c (List.mem_cons_of_mem a hc)
      rw [List.map_cons, sortBy, ih hl, insertBy_map, sortBy]
      exact fun b hb => h a List.mem_cons_self b (List.mem_cons_of_mem a (mem_sortBy.mp hb))

theorem compareLex_map {cmp : α → α → Ordering} {cmp' : β → β → Ordering} {l l' : List α}
    (h : ∀ a ∈ l, ∀ b ∈ l', cmp' (f a) (f b) = cmp a b) :
    List.compareLex cmp' (l.map f) (l'.map f) = List.compareLex cmp l l' := by
  induction l generalizing l' with
  | nil => cases l' <;> rfl
  | cons a l ih =>
      cases l' with
      | nil => rfl
      | cons b l' =>
          rw [List.map_cons, List.map_cons, List.compareLex_cons_cons, List.compareLex_cons_cons,
            h a List.mem_cons_self b List.mem_cons_self, ih]
          exact fun c hc d hd => h c (List.mem_cons_of_mem a hc) d (List.mem_cons_of_mem b hd)

variable [Ord α] [Ord β]

theorem compare_map {l l' : List α} (h : ∀ a ∈ l, ∀ b ∈ l', compare (f a) (f b) = compare a b) :
    compare (l.map f) (l'.map f) = compare l l' :=
  compareLex_map h

theorem sortingSign_map {l : List α} (h : ∀ a ∈ l, ∀ b ∈ l, compare (f a) (f b) = compare a b) :
    sortingSign (l.map f) = sortingSign l := by
  have hinv : inversions (l.map f) = inversions l := by
    induction l with
    | nil => rfl
    | cons a l ih =>
        have hl : ∀ b ∈ l, ∀ c ∈ l, compare (f b) (f c) = compare b c := fun b hb c hc =>
          h b (List.mem_cons_of_mem a hb) c (List.mem_cons_of_mem a hc)
        rw [List.map_cons, inversions, inversions, ih hl, List.countP_map]
        refine congrArg (· + _) (List.countP_congr fun b hb => ?_)
        rw [Function.comp, h a List.mem_cons_self b (List.mem_cons_of_mem a hb)]
  rw [sortingSign, hinv, sortingSign]

end Map

/-! ## Relabellings -/

/-- Whether a renaming gives the members of a list other labels only: external indices stay, each
index keeps its space and its kind, and the order stays. -/
structure Relabels (r : Renaming) (is : List Index) : Prop where
  external : ∀ i ∈ is, i.external = true → r i = i
  space : ∀ i ∈ is, (r i).space = i.space
  kind : ∀ i ∈ is, (r i).external = i.external
  increasing : ∀ i ∈ is, ∀ j ∈ is, compare i j = .lt → compare (r i) (r j) = .lt

theorem relabels_id (is : List Index) : Relabels id is :=
  ⟨fun _ _ _ => rfl, fun _ _ => rfl, fun _ _ => rfl, fun _ _ _ _ h => h⟩

/-- Whether all indices of a tensor are members of a list. -/
def Tensor.UsesOnly (is : List Index) (t : Tensor) : Prop :=
  ∀ i ∈ t.indices, i ∈ is

theorem Word.usesOnly_iff {is : List Index} {w : Word} :
    (∀ t ∈ w, t.UsesOnly is) ↔ ∀ i ∈ w.indices, i ∈ is := by
  simp only [mem_indices, Tensor.UsesOnly]
  exact ⟨fun h i ⟨t, ht, hi⟩ => h t ht i hi, fun h t ht i hi => h i ⟨t, ht, hi⟩⟩

variable {r : Renaming} {is : List Index}

namespace Relabels

theorem mono {js : List Index} (h : Relabels r is) (hsub : ∀ i ∈ js, i ∈ is) : Relabels r js where
  external i hi := h.external i (hsub i hi)
  space i hi := h.space i (hsub i hi)
  kind i hi := h.kind i (hsub i hi)
  increasing i hi j hj := h.increasing i (hsub i hi) j (hsub j hj)

theorem congr {r' : Renaming} (h : Relabels r is) (heq : ∀ i ∈ is, r' i = r i) :
    Relabels r' is where
  external i hi he := (heq i hi).trans (h.external i hi he)
  space i hi := by rw [heq i hi, h.space i hi]
  kind i hi := by rw [heq i hi, h.kind i hi]
  increasing i hi j hj hlt := by rw [heq i hi, heq j hj, h.increasing i hi j hj hlt]

/-- The order of two indices is that of their new labels. -/
theorem compare_eq (h : Relabels r is) {i j : Index} (hi : i ∈ is) (hj : j ∈ is) :
    compare (r i) (r j) = compare i j := by
  cases hij : compare i j with
  | lt => exact h.increasing i hi j hj hij
  | gt =>
      have hji : compare j i = .lt := Std.OrientedCmp.lt_of_gt hij
      exact Std.OrientedCmp.gt_of_lt (h.increasing j hj i hi hji)
  | eq =>
      obtain rfl : i = j := Std.LawfulEqOrd.eq_of_compare hij
      exact Std.ReflCmp.compare_self

theorem keepsApart (h : Relabels r is) : r.KeepsApart is := by
  intro i hi j hj heq
  refine Std.LawfulEqOrd.eq_of_compare ?_
  rw [← h.compare_eq hi hj, heq]
  exact Std.ReflCmp.compare_self

theorem eq_iff (h : Relabels r is) {i j : Index} (hi : i ∈ is) (hj : j ∈ is) :
    r i = r j ↔ i = j :=
  ⟨h.keepsApart i hi j hj, fun heq => heq ▸ rfl⟩

end Relabels

/-! ## Tensors -/

namespace Tensor

variable {s t : Tensor}

theorem UsesOnly.upper (ht : t.UsesOnly is) : ∀ i ∈ t.upper, i ∈ is :=
  fun i hi => ht i (List.mem_append_left _ hi)

theorem UsesOnly.lower (ht : t.UsesOnly is) : ∀ i ∈ t.lower, i ∈ is :=
  fun i hi => ht i (List.mem_append_right _ hi)

theorem compare_relabel (h : Relabels r is) (hs : s.UsesOnly is) (ht : t.UsesOnly is) :
    compare (s.rename r) (t.rename r) = compare s t := by
  have hlist : ∀ l l' : List Index, (∀ i ∈ l, i ∈ is) → (∀ i ∈ l', i ∈ is) →
      compare (l.map r) (l'.map r) = compare l l' := fun l l' hl hl' =>
    compare_map fun i hi j hj => h.compare_eq (hl i hi) (hl' j hj)
  show cmp (s.rename r) (t.rename r) = cmp s t
  simp only [cmp, compareLex, compareOn, rename, isOperator, List.length_map,
    hlist _ _ hs.upper ht.upper, hlist _ _ hs.lower ht.lower]

theorem placeCmp_relabel (h : Relabels r is) (hs : s.UsesOnly is) (ht : t.UsesOnly is) :
    (s.rename r).placeCmp (t.rename r) = s.placeCmp t := by
  have hplace : ∀ u v : Tensor, u.placeCmp v =
      (compare u.isOperator v.isOperator).then (compare u.cNumber? v.cNumber?) := fun _ _ => rfl
  have hop : ∀ u : Tensor, (u.rename r).isOperator = u.isOperator := fun _ => rfl
  rw [hplace, hplace, cNumber?, cNumber?, cNumber?, cNumber?, hop, hop]
  -- Only two c-numbers are compared by their indices.
  cases s.isOperator <;> cases t.isOperator
  · exact congrArg (Ordering.then _) (compare_relabel h hs ht)
  · rfl
  · rfl
  · rfl

theorem sorted_rename (hupper : Relabels r t.upper) (hlower : Relabels r t.lower) :
    (t.rename r).sorted = t.sorted.rename r := by
  have hlist : ∀ l : List Index, Relabels r l →
      sortBy compare (l.map r) = (sortBy compare l).map r := fun l hl =>
    sortBy_map fun i hi j hj => hl.compare_eq hi hj
  simp only [sorted, rename, hlist _ hupper, hlist _ hlower]

/-- A renaming that relabels each of the two lists keeps the sign of the canonical form, whatever it
does to the order between the lists. -/
theorem canonical?_rename (hupper : Relabels r t.upper) (hlower : Relabels r t.lower) :
    (t.rename r).canonical? = t.canonical?.map fun x => (x.1, x.2.rename r) := by
  have hsign : ∀ l : List Index, Relabels r l → sortingSign (l.map r) = sortingSign l :=
    fun l hl => sortingSign_map fun i hi j hj => hl.compare_eq hi hj
  have hnodup : ∀ l : List Index, Relabels r l → ((l.map r).Nodup ↔ l.Nodup) :=
    fun l hl => ⟨fun hd => hd.of_map r, fun hd => hd.map_on hl.keepsApart⟩
  have hsorted := sorted_rename hupper hlower
  cases hs : t.symmetry with
  | plain =>
      rw [canonical?_of_plain hs, canonical?_of_plain (t := t.rename r) hs]
      rfl
  | symmetric =>
      rw [canonical?_of_symmetric hs, canonical?_of_symmetric (t := t.rename r) hs, hsorted]
      rfl
  | antisymmetric =>
      have hdistinct : (t.rename r).Distinct ↔ t.Distinct :=
        and_congr (hnodup _ hupper) (hnodup _ hlower)
      by_cases hd : t.Distinct
      · rw [canonical?_of_distinct hs hd,
          canonical?_of_distinct (t := t.rename r) hs (hdistinct.mpr hd), hsorted, sign, sign]
        simp only [rename, hsign _ hupper, hsign _ hlower, Option.map_some]
      · rw [canonical?_of_not_distinct hs hd,
          canonical?_of_not_distinct (t := t.rename r) hs fun hd' => hd (hdistinct.mp hd')]
        rfl

/-- The canonical form of a relabelled tensor has the same sign and is relabelled. -/
theorem canonical?_relabel (h : Relabels r is) (ht : t.UsesOnly is) :
    (t.rename r).canonical? = t.canonical?.map fun x => (x.1, x.2.rename r) :=
  canonical?_rename (h.mono ht.upper) (h.mono ht.lower)

theorem isCanonical_relabel (h : Relabels r is) (ht : t.UsesOnly is) (hc : t.IsCanonical) :
    (t.rename r).IsCanonical := by
  rw [IsCanonical, canonical?_relabel h ht, show t.canonical? = some (.plus, t) from hc]
  rfl

end Tensor

/-! ## Words -/

namespace Word

variable {u v w : Word}

theorem canonical?_relabel (h : Relabels r is) (hw : ∀ t ∈ w, t.UsesOnly is) :
    canonical? (w.map (Tensor.rename r)) =
      w.canonical?.map fun x => (x.1, x.2.map (Tensor.rename r)) := by
  induction w with
  | nil => rfl
  | cons t w ih =>
      obtain ⟨ht, hw⟩ := List.forall_mem_cons.mp hw
      rw [List.map_cons, canonical?, canonical?, ih hw, Tensor.canonical?_relabel h ht]
      cases t.canonical? with
      | none => rfl
      | some x =>
          cases canonical? w with
          | none => rfl
          | some y => rfl

/-- Relabelling keeps the places of the letters in the normal form. -/
theorem normal_relabel (h : Relabels r is) (hw : ∀ t ∈ w, t.UsesOnly is) :
    normal (w.map (Tensor.rename r)) = w.normal.map (Tensor.rename r) :=
  sortBy_map fun s hs t ht => Tensor.placeCmp_relabel h (hw s hs) (hw t ht)

theorem isCanonical_relabel (h : Relabels r is) (hw : w.IsCanonical)
    (huses : ∀ t ∈ w, t.UsesOnly is) : Word.IsCanonical (w.map (Tensor.rename r)) := by
  refine ⟨?_, List.forall_mem_map.mpr fun t ht => ?_⟩
  · rw [normal_relabel h huses, hw.1]
  · exact Tensor.isCanonical_relabel h (huses t ht) (hw.2 t ht)

theorem cmp_relabel (h : Relabels r is) (hu : ∀ t ∈ u, t.UsesOnly is)
    (hv : ∀ t ∈ v, t.UsesOnly is) :
    cmp (u.map (Tensor.rename r)) (v.map (Tensor.rename r)) = cmp u v := by
  have hcmp : compare (u.map (Tensor.rename r)) (v.map (Tensor.rename r)) = compare u v :=
    compare_map fun s hs t ht => Tensor.compare_relabel h (hu s hs) (hv t ht)
  simp only [cmp, compareLex, compareOn, List.length_map, hcmp]

/-- A relabelled monomial is the monomial of the relabelled word. -/
theorem rename_monomial_relabel (h : Relabels r is) (hw : w.IsCanonical)
    (huses : ∀ t ∈ w, t.UsesOnly is) :
    w.monomial.rename r = monomial (w.map (Tensor.rename r)) := by
  rw [rename_monomial r hw, tree_eq_monomial (isCanonical_relabel h hw huses)]

theorem eval_rename (r : Renaming) (w : Word) :
    eval OperatorAlgebra.gen (w.map (Tensor.rename r)) =
      OperatorAlgebra.rename r (w.eval OperatorAlgebra.gen) := by
  rw [map_eval, eval, List.map_map, eval]
  simp only [OperatorAlgebra.rename_gen, Function.comp_def]

end Word

/-! ## Sums of words -/

namespace WordSum

/-- The sum with the indices of its words renamed, each word in its place. -/
def relabel (r : Renaming) (p : WordSum) : WordSum :=
  p.map fun t => (t.1, t.2.map (Tensor.rename r))

/-- Whether all indices of a sum are members of a list. -/
def UsesOnly (is : List Index) (p : WordSum) : Prop :=
  ∀ t ∈ p, ∀ x ∈ t.2, x.UsesOnly is

theorem eval_relabel (r : Renaming) (p : WordSum) :
    (p.relabel r).eval OperatorAlgebra.gen =
      OperatorAlgebra.rename r (p.eval OperatorAlgebra.gen) := by
  have hmap : (p.relabel r).eval OperatorAlgebra.gen =
      Combination.eval (fun w => OperatorAlgebra.rename r (Word.eval OperatorAlgebra.gen w)) p := by
    rw [relabel, eval, Combination.eval_map]
    simp only [Word.eval_rename]
  rw [hmap, eval]
  exact (Combination.map_eval (OperatorAlgebra.rename r).toLinearMap _ p).symm

variable {p : WordSum}

theorem isCanonical_relabel (h : Relabels r is) (hp : p.IsCanonical) (huses : p.UsesOnly is) :
    (p.relabel r).IsCanonical := by
  refine ⟨⟨List.pairwise_map.mpr ?_, List.forall_mem_map.mpr hp.1.2⟩,
    List.forall_mem_map.mpr fun t ht => Word.isCanonical_relabel h (hp.2 t ht) (huses t ht)⟩
  exact hp.1.1.imp_of_mem fun {s t} hs ht hlt => by
    rw [Word.cmp_relabel h (huses s hs) (huses t ht), hlt]

/-- A relabelled tree is the tree of the relabelled sum. -/
theorem rename_toExpr (h : Relabels r is) (hp : p.IsCanonical) (huses : p.UsesOnly is) :
    p.toExpr.rename r = (p.relabel r).toExpr := by
  refine Expr.eq_of_denote_eq (Expr.isCanonical_rename r _)
    (Expr.isCanonical_toExpr (isCanonical_relabel h hp huses)) ?_
  rw [Expr.denote_rename, Expr.denote, eval_toExpr, Expr.denote, eval_toExpr, eval_relabel]

end WordSum

/-! ## Trees -/

namespace Expr

theorem usesOnly_words {e : Expr} (he : e.IsCanonical) : e.words.UsesOnly e.indices := by
  obtain ⟨p, hp, rfl⟩ := isCanonical_iff.mp he
  rw [words_toExpr hp]
  intro t ht x hx i hi
  refine mem_indices_of_mem_leaves ?_ hi
  rw [leaves_toExpr hp]
  exact List.mem_flatMap.mpr ⟨t, ht, hx⟩

/-- The words of a relabelled tree are the relabelled words of the tree, in the same order. -/
theorem words_rename {e : Expr} (he : e.IsCanonical) (h : Relabels r e.indices) :
    (e.rename r).words = e.words.relabel r := by
  have huses := usesOnly_words he
  obtain ⟨p, hp, rfl⟩ := isCanonical_iff.mp he
  rw [words_toExpr hp] at huses ⊢
  rw [WordSum.rename_toExpr h hp huses, words_toExpr (WordSum.isCanonical_relabel h hp huses)]

end Expr

end SecondQuant
