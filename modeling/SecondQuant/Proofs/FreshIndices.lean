import Mathlib.Order.Basic
import SecondQuant.Proofs.AdjointWords
import SecondQuant.Proofs.IndexSupport

/-!
# Fresh indices

A context only ever counts upwards, so the dummies that it hands out between two of its states are
those with the numbers in between, and what is handed out earlier is never handed out again.  An
expression built on such dummies owns them: each of them stands once in a c-number and once on an
operator of a single term.

* `Index.DrawnBetween`, `HandedOut` — the dummies handed out between two contexts, as a list without
  repetitions.
* `handedOut_drawEach` — draws hand out the next dummies.
* `WordSum.HandedOut` — the same of a weighted sum of words whose terms share no index.
* `WordSum.HandedOut.append`, `Expr.words_total_perm`, `Expr.handedOut_adjoint` — sums of what is
  built one after the other, and adjoints.
-/

namespace SecondQuant

/-! ## Between two contexts -/

/-- A context is below another one that has handed out at least as many dummies of every space. -/
instance : Preorder IndexContext where
  le c c' := ∀ s, c.drawn s ≤ c'.drawn s
  le_refl _ _ := Nat.le_refl _
  le_trans _ _ _ h h' s := Nat.le_trans (h s) (h' s)

theorem IndexContext.le_record (c : IndexContext) (s : Space) : c ≤ c.record s := by
  intro t
  by_cases h : t = s
  · rw [h, drawn_record_self]
    exact Nat.le_succ _
  · rw [drawn_record_of_ne c h]

/-- Whether an index is one of the dummies handed out between two contexts. -/
def Index.DrawnBetween (c c' : IndexContext) (i : Index) : Prop :=
  i.external = false ∧ c.drawn i.space < i.number ∧ i.number ≤ c'.drawn i.space

section Between

variable {c mid c' : IndexContext} {i : Index}

theorem Index.not_drawnBetween_self (c : IndexContext) (i : Index) : ¬i.DrawnBetween c c :=
  fun h => Nat.not_le_of_gt h.2.1 h.2.2

/-- What has been handed out is not handed out again. -/
theorem Index.DrawnBetween.not_later (h : i.DrawnBetween c mid) : ¬i.DrawnBetween mid c' :=
  fun h' => Nat.not_le_of_gt h'.2.1 h.2.2

theorem Index.DrawnBetween.mono (hle : c ≤ mid) (h : i.DrawnBetween mid c') :
    i.DrawnBetween c c' :=
  ⟨h.1, Nat.lt_of_le_of_lt (hle i.space) h.2.1, h.2.2⟩

theorem Index.drawnBetween_iff_or (h : c ≤ mid) (h' : mid ≤ c') :
    i.DrawnBetween c c' ↔ i.DrawnBetween c mid ∨ i.DrawnBetween mid c' := by
  have hs := h i.space
  have hs' := h' i.space
  simp only [DrawnBetween, ← and_or_left]
  refine and_congr_right fun _ => ?_
  omega

/-- One draw hands out a single dummy. -/
theorem Index.drawnBetween_record (c : IndexContext) (s : Space) :
    i.DrawnBetween c (c.record s) ↔ i = .dummy s (c.drawn s + 1) := by
  obtain ⟨space, number, external⟩ := i
  simp only [DrawnBetween, Index.dummy, Index.mk.injEq]
  by_cases h : space = s
  · rw [h, IndexContext.drawn_record_self, and_comm]
    simp only [true_and]
    refine and_congr_left fun _ => ?_
    omega
  · rw [IndexContext.drawn_record_of_ne c h]
    exact iff_of_false (fun hi => Nat.not_le_of_gt hi.2.1 hi.2.2) fun hi => h hi.1

/-! ## Lists of draws -/

/-- Whether a list holds exactly the dummies handed out between two contexts, each of them once. -/
structure HandedOut (c c' : IndexContext) (is : List Index) : Prop where
  le : c ≤ c'
  nodup : is.Nodup
  mem_iff : ∀ i, i ∈ is ↔ i.DrawnBetween c c'

theorem handedOut_nil (c : IndexContext) : HandedOut c c [] where
  le := le_rfl
  nodup := .nil
  mem_iff i := iff_of_false List.not_mem_nil (i.not_drawnBetween_self c)

theorem handedOut_draw (c : IndexContext) (s : Space) :
    HandedOut c (c.record s) [.dummy s (c.drawn s + 1)] where
  le := c.le_record s
  nodup := List.nodup_singleton _
  mem_iff i := by rw [Index.drawnBetween_record, List.mem_singleton]

theorem HandedOut.append {is js : List Index} (h : HandedOut c mid is) (h' : HandedOut mid c' js) :
    HandedOut c c' (is ++ js) where
  le := h.le.trans h'.le
  nodup := List.nodup_append'.mpr ⟨h.nodup, h'.nodup, fun i hi hj =>
    ((h.mem_iff i).mp hi).not_later ((h'.mem_iff i).mp hj)⟩
  mem_iff i := by
    rw [List.mem_append, h.mem_iff, h'.mem_iff, Index.drawnBetween_iff_or h.le h'.le]

theorem HandedOut.perm {is js : List Index} (h : HandedOut c c' is) (hperm : js.Perm is) :
    HandedOut c c' js where
  le := h.le
  nodup := hperm.nodup_iff.mpr h.nodup
  mem_iff i := hperm.mem_iff.trans (h.mem_iff i)

/-- Draws hand out the next dummies of their spaces. -/
theorem handedOut_drawEach (ss : List Space) (c : IndexContext) :
    HandedOut c ((Drawing.drawEach ss).run c).2 ((Drawing.drawEach ss).run c).1 := by
  induction ss generalizing c with
  | nil => exact handedOut_nil c
  | cons s ss ih => exact (handedOut_draw c s).append (ih (c.record s))

end Between

/-! ## Sums of words -/

/-- Whether every index of a word occurs in it once in a c-number and once on an operator. -/
def Word.PairsIndices (w : Word) : Prop :=
  ∀ i ∈ w.indices, (indices w.cNumbers).count i = 1 ∧ (indices w.operators).count i = 1

theorem Word.indices_perm {u v : Word} (h : u.Perm v) : u.indices.Perm v.indices :=
  h.flatMap_right _

/-- Every letter is a c-number or an operator. -/
theorem Word.count_indices (w : Word) (i : Index) :
    w.indices.count i = (indices w.cNumbers).count i + (indices w.operators).count i := by
  have hperm : (w.cNumbers ++ w.operators).Perm w :=
    ((sortBy_perm _ _).symm.append_right _).trans w.reading_perm
  rw [← (indices_perm hperm).count_eq, indices, List.flatMap_append, List.count_append]
  rfl

theorem Tensor.indices_adjoint_perm (t : Tensor) : t.adjoint.indices.Perm t.indices := by
  obtain ⟨name, upper, lower, symmetry, ladder⟩ := t
  cases ladder with
  | none => exact List.perm_append_comm
  | some l => exact .rfl

theorem Word.indices_map_adjoint_perm (w : Word) :
    (indices (w.map Tensor.adjoint)).Perm w.indices := by
  rw [indices, List.flatMap_map]
  exact List.Perm.flatMap_left _ fun t _ => t.indices_adjoint_perm

/-- The letters of the adjoint have the indices of the letters. -/
theorem Word.indices_adjoint_perm (w : Word) :
    (indices w.adjoint.cNumbers).Perm (indices w.cNumbers) ∧
      (indices w.adjoint.operators).Perm (indices w.operators) ∧
      w.adjoint.indices.Perm w.indices := by
  refine ⟨?_, ?_, ?_⟩
  · exact (indices_perm w.cNumbers_adjoint_perm).trans (indices_map_adjoint_perm _)
  · rw [operators_adjoint]
    exact (indices_perm (List.reverse_perm _)).trans (indices_map_adjoint_perm _)
  · exact (indices_perm ((normal_perm _).trans (List.reverse_perm _))).trans
      (indices_map_adjoint_perm _)

theorem Word.PairsIndices.adjoint {w : Word} (h : w.PairsIndices) : w.adjoint.PairsIndices := by
  obtain ⟨hc, ho, hall⟩ := w.indices_adjoint_perm
  intro i hi
  rw [hc.count_eq, ho.count_eq]
  exact h i (hall.mem_iff.mp hi)

namespace WordSum

/-- Whether the words of a sum use exactly the dummies handed out between two contexts, each index
in one word only, once in a c-number and once on an operator. -/
structure HandedOut (c c' : IndexContext) (p : WordSum) : Prop where
  le : c ≤ c'
  mem_iff : ∀ i, (∃ t ∈ p, i ∈ t.2.indices) ↔ i.DrawnBetween c c'
  pairs : ∀ t ∈ p, t.2.PairsIndices
  apart : p.Pairwise fun s t => s.2.indices.Disjoint t.2.indices

/-- Whether every word of a sum has an index. -/
def HasIndices (p : WordSum) : Prop :=
  ∀ t ∈ p, t.2.indices ≠ []

namespace HandedOut

variable {c mid c' : IndexContext} {p q : WordSum}

theorem nil (c : IndexContext) : HandedOut c c [] where
  le := le_rfl
  mem_iff i := iff_of_false (fun ⟨_, ht, _⟩ => nomatch ht) (i.not_drawnBetween_self c)
  pairs := List.forall_mem_nil _
  apart := .nil

/-- Words that are built one after the other share no index. -/
theorem append (h : HandedOut c mid p) (h' : HandedOut mid c' q) : HandedOut c c' (p ++ q) where
  le := h.le.trans h'.le
  mem_iff i := by
    rw [Index.drawnBetween_iff_or h.le h'.le, ← h.mem_iff, ← h'.mem_iff]
    simp only [List.mem_append, or_and_right, exists_or]
  pairs := List.forall_mem_append.mpr ⟨h.pairs, h'.pairs⟩
  apart := List.pairwise_append.mpr ⟨h.apart, h'.apart, fun s hs t ht i hi hj =>
    ((h.mem_iff i).mp ⟨s, hs, hi⟩).not_later ((h'.mem_iff i).mp ⟨t, ht, hj⟩)⟩

theorem perm (h : HandedOut c c' p) (hpq : q.Perm p) : HandedOut c c' q where
  le := h.le
  mem_iff i := by simpa only [hpq.mem_iff] using h.mem_iff i
  pairs t ht := h.pairs t (hpq.mem_iff.mp ht)
  apart := (hpq.pairwise_iff fun h => h.symm).mpr h.apart

theorem adjoints (h : HandedOut c c' p) : HandedOut c c' p.adjoints where
  le := h.le
  mem_iff i := by
    rw [← h.mem_iff i]
    simp only [WordSum.adjoints, List.mem_map, exists_exists_and_eq_and,
      (Word.indices_adjoint_perm _).2.2.mem_iff]
  pairs := List.forall_mem_map.mpr fun t ht => (h.pairs t ht).adjoint
  apart := List.pairwise_map.mpr <| h.apart.imp fun {s t} hst i hi hj =>
    hst (s.2.indices_adjoint_perm.2.2.mem_iff.mp hi) (t.2.indices_adjoint_perm.2.2.mem_iff.mp hj)

/-- Words that share no index are distinct if they have any. -/
theorem nodup (h : HandedOut c c' p) (hne : p.HasIndices) : (p.map Prod.snd).Nodup := by
  refine List.pairwise_map.mpr (h.apart.imp_of_mem fun {s t} hs _ hst heq => ?_)
  obtain ⟨i, hi⟩ := List.exists_mem_of_ne_nil _ (hne s hs)
  exact hst hi (heq ▸ hi)

end HandedOut

end WordSum

/-! ## Trees -/

namespace Expr

variable {c c' : IndexContext}

/-- The adjoint of an expression has the same indices, in the same way. -/
theorem handedOut_adjoint {e : Expr} (h : e.words.HandedOut c c') :
    e.adjoint.words.HandedOut c c' :=
  h.adjoints.perm e.words_adjoint_perm

theorem hasIndices_adjoint {e : Expr} (h : e.words.HasIndices) : e.adjoint.words.HasIndices := by
  intro t ht
  obtain ⟨s, hs, rfl⟩ := List.mem_map.mp (e.words_adjoint_perm.mem_iff.mp ht)
  intro hnil
  have hperm := s.2.indices_adjoint_perm.2.2
  rw [hnil] at hperm
  exact h s hs hperm.symm.eq_nil

/-- The words of a sum are those of its members, collected. -/
theorem words_total (es : List Expr) :
    (total es).words = Combination.collect Word.cmp (es.flatMap words) := by
  have hcan : ∀ t ∈ es.flatMap words, t.2.IsCanonical := by
    intro t ht
    obtain ⟨e, _, ht⟩ := List.mem_flatMap.mp ht
    exact e.isCanonical_canonicalWords_expand.2 t ht
  refine WordSum.eq_of_eval_gen (isCanonical_canonicalWords_expand _)
    (WordSum.built_collect hcan) ?_
  rw [← denote_eq_eval_words, denote_total, WordSum.eval, Combination.eval_collect,
    Combination.eval_flatMap]
  exact congrArg List.sum (List.map_congr_left fun e _ => e.denote_eq_eval_words)

/-- The sum of expressions that share no index has all their words. -/
theorem words_total_perm {es : List Expr} (h : WordSum.HandedOut c c' (es.flatMap words))
    (hne : WordSum.HasIndices (es.flatMap words)) : (total es).words.Perm (es.flatMap words) := by
  rw [words_total]
  refine Combination.collect_perm (h.nodup hne) fun t ht => ?_
  obtain ⟨e, _, ht⟩ := List.mem_flatMap.mp ht
  exact e.isCanonical_canonicalWords_expand.1.2 t ht

end Expr

end SecondQuant
