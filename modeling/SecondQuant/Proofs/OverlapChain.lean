import SecondQuant.Proofs.Excitations
import SecondQuant.Proofs.PairingSign

/-!
# The chain of an overlap

In the product of an excitation of rank `-n` and one of rank `n` every operator of the first half
contracts with one of the second half.  A complete contraction joins them by lines, one for each
particle and one for each hole; the lines between equal places do not cross, and any other way to
join the operators permutes the places where the lines stop.

* `Line`, `Line.start`, `Line.stop` — the lines and the positions that they join.
* `Line.sortingSign_all` — lines between equal places cost no exchange.
* `Line.index`, `Line.compare_index` — the indices at the ends of the lines.
* `Builder.overlapChain`, `Builder.getElem?_start`, `Builder.getElem?_stop` — **the operators at the
  ends of the lines**.
-/

namespace SecondQuant

open Builder

/-! ## Lines -/

/-- The lines of a complete contraction of an overlap: one for each particle and one for each
hole. -/
abbrev Line (n : ℕ) := Fin n ⊕ Fin n

namespace Line

variable {n : ℕ}

/-- The position in the first half of the chain where a line starts. -/
def start : Line n → ℕ
  | .inl k => 2 * n - 1 - k
  | .inr k => k

/-- The position in the second half of the chain where a line stops if it joins equal places. -/
def stop : Line n → ℕ
  | .inl k => 2 * n + k
  | .inr k => 4 * n - 1 - k

/-- What the first operator of a line does. -/
def action : Line n → Action
  | .inl _ => .annihilation
  | .inr _ => .creation

/-- Every line: particles, then holes. -/
def all (n : ℕ) : List (Line n) :=
  (List.finRange n).map .inl ++ (List.finRange n).map .inr

theorem mem_all (x : Line n) : x ∈ all n := by
  rcases x with k | k <;> simp [all]

theorem nodup_all (n : ℕ) : (all n).Nodup := by
  refine List.nodup_append'.mpr ⟨?_, ?_, ?_⟩
  · exact (List.nodup_finRange n).map Sum.inl_injective
  · exact (List.nodup_finRange n).map Sum.inr_injective
  · simp [List.disjoint_left]

theorem length_all (n : ℕ) : (all n).length = 2 * n := by
  simp [all]
  omega

theorem start_lt (x : Line n) : x.start < 2 * n := by
  rcases x with k | k <;> simp only [start] <;> omega

theorem le_stop (x : Line n) : 2 * n ≤ x.stop ∧ x.stop < 4 * n := by
  rcases x with k | k <;> simp only [stop] <;> omega

theorem start_injective : Function.Injective (start : Line n → ℕ) := by
  rintro (j | j) (k | k) h
  · exact congrArg Sum.inl (Fin.ext (by simp only [start] at h; omega))
  · simp only [start] at h; omega
  · simp only [start] at h; omega
  · exact congrArg Sum.inr (Fin.ext h)

theorem stop_injective : Function.Injective (stop : Line n → ℕ) := by
  rintro (j | j) (k | k) h
  · exact congrArg Sum.inl (Fin.ext (by simp only [stop] at h; omega))
  · simp only [stop] at h; omega
  · simp only [stop] at h; omega
  · exact congrArg Sum.inr (Fin.ext (by simp only [stop] at h; omega))

/-- No two ends of lines stand at the same position. -/
theorem ends_injective : Function.Injective (Sum.elim start stop : Line n ⊕ Line n → ℕ) := by
  refine start_injective.sumElim stop_injective fun x y => ?_
  have hx := x.start_lt
  have hy := y.le_stop
  omega

/-- The ends of lines are all positions of the chain. -/
theorem exists_end {k : ℕ} (hk : k < 4 * n) : ∃ x : Line n, k = x.start ∨ k = x.stop := by
  by_cases h₁ : k < n
  · exact ⟨.inr ⟨k, h₁⟩, .inl rfl⟩
  by_cases h₂ : k < 2 * n
  · exact ⟨.inl ⟨2 * n - 1 - k, by omega⟩, .inl (by simp only [start]; omega)⟩
  by_cases h₃ : k < 3 * n
  · exact ⟨.inl ⟨k - 2 * n, by omega⟩, .inr (by simp only [stop]; omega)⟩
  · exact ⟨.inr ⟨4 * n - 1 - k, by omega⟩, .inr (by simp only [stop]; omega)⟩

/-- Lines between equal places do not cross. -/
theorem nests {x y : Line n} (hne : x ≠ y) : Pair.Nests ⟨x.start, x.stop⟩ ⟨y.start, y.stop⟩ := by
  have hends : ∀ {p q : Pair}, (p.encloses q.left = true ↔ p.encloses q.right = true) → p.Nests q :=
    fun h => Bool.eq_iff_iff.mpr h
  apply hends
  rw [Pair.encloses_iff, Pair.encloses_iff]
  rcases x with j | j <;> rcases y with k | k <;> simp only [start, stop]
  · have hjk : (j : ℕ) ≠ k := fun he => hne (congrArg Sum.inl (Fin.ext he))
    omega
  · omega
  · omega
  · have hjk : (j : ℕ) ≠ k := fun he => hne (congrArg Sum.inr (Fin.ext he))
    omega

/-- Lines between equal places cost no exchange. -/
theorem sortingSign_all (n : ℕ) :
    sortingSign (positions (pairUp (all n) start stop)) = .plus := by
  refine sortingSign_positions_of_nests (nodup_positions_pairUp (nodup_all n) ends_injective) ?_ ?_
  · refine List.forall_mem_map.mpr fun x _ => ?_
    have hx := x.start_lt
    have hy := x.le_stop
    show x.start < x.stop
    omega
  · exact List.pairwise_map.mpr ((nodup_all n).imp nests)

/-- The places where the lines stop, particles and holes permuted. -/
def relink (π σ : Equiv.Perm (Fin n)) : Equiv.Perm (Line n) :=
  Equiv.Perm.sumCongr π σ

theorem action_relink (π σ : Equiv.Perm (Fin n)) (x : Line n) :
    (relink π σ x).action = x.action := by
  rcases x with k | k <;> rfl

/-- The space of the indices that a line joins. -/
def space : Line n → Space
  | .inl _ => .virtual
  | .inr _ => .occupied

/-- The place of a line among those of its space. -/
def place : Line n → Fin n :=
  Sum.elim id id

/-- The index that an excitation built on a context has at the place of a line. -/
def index (c : IndexContext) (x : Line n) : Index :=
  .after x.space (c.drawn x.space) x.place

theorem space_relink (π σ : Equiv.Perm (Fin n)) (x : Line n) :
    (relink π σ x).space = x.space := by
  rcases x with k | k <;> rfl

theorem index_injective (c : IndexContext) : Function.Injective (index c : Line n → Index) := by
  rintro (j | j) (k | k) h
  · have hnumber : c.drawn .virtual + j + 1 = c.drawn .virtual + k + 1 := congrArg Index.number h
    exact congrArg Sum.inl (Fin.ext (by omega))
  · exact absurd (congrArg Index.space h) (by simp [index, Index.after, Index.dummy, space])
  · exact absurd (congrArg Index.space h) (by simp [index, Index.after, Index.dummy, space])
  · have hnumber : c.drawn .occupied + j + 1 = c.drawn .occupied + k + 1 := congrArg Index.number h
    exact congrArg Sum.inr (Fin.ext (by omega))

theorem drawn_space (c : IndexContext) (x : Line n) :
    (afterExcitation c n).drawn x.space = c.drawn x.space + n := by
  rcases x with k | k
  · exact (drawn_afterExcitation c n).1
  · exact (drawn_afterExcitation c n).2

/-- In a space the second excitation has greater indices than the first one. -/
theorem compare_index (c : IndexContext) {x y : Line n} (h : x.space = y.space) :
    compare (x.index c) (y.index (afterExcitation c n)) = .lt := by
  have hplace := x.place.isLt
  rw [index, index, ← h, drawn_space, Index.compare_after, Nat.compare_eq_lt]
  omega

theorem index_ne (c : IndexContext) (x y : Line n) :
    x.index c ≠ y.index (afterExcitation c n) := by
  intro he
  have hspace : x.space = y.space := congrArg Index.space he
  have hlt := compare_index c hspace
  simp [he] at hlt

end Line

/-! ## The chain -/

/-- The chain member of an elementary operator. -/
def ChainOperator.elementary (l : Ladder) (i : Index) : ChainOperator :=
  ⟨.elementary l i, l, i⟩

namespace Builder

/-- The chain of creations in order and annihilations in the reverse order. -/
def ladderChain (s : Statistics) (cre ann : List Index) : List ChainOperator :=
  cre.map (.elementary ⟨s, .creation⟩) ++ ann.reverse.map (.elementary ⟨s, .annihilation⟩)

section Ladders

variable (s : Statistics) (cre ann : List Index)

theorem filterMap_ladders :
    (ladders s cre ann).filterMap ChainOperator.read? = ladderChain s cre ann := by
  have hread : ∀ (l : Ladder) (is : List Index),
      (is.map (Tensor.elementary l)).filterMap ChainOperator.read? =
        is.map (ChainOperator.elementary l) := by
    intro l is
    rw [List.filterMap_map, ← List.filterMap_eq_map]
    rfl
  rw [ladders, List.filterMap_append, hread, hread, ladderChain]

theorem isSome_read?_of_mem_ladders :
    ∀ t ∈ ladders s cre ann, (ChainOperator.read? t).isSome :=
  List.forall_mem_append.mpr
    ⟨List.forall_mem_map.mpr fun _ _ => rfl, List.forall_mem_map.mpr fun _ _ => rfl⟩

theorem length_ladderChain : (ladderChain s cre ann).length = cre.length + ann.length := by
  simp [ladderChain]

theorem getElem?_ladderChain_creation {k : ℕ} (hk : k < cre.length) :
    (ladderChain s cre ann)[k]? = cre[k]?.map (.elementary ⟨s, .creation⟩) := by
  rw [ladderChain, List.getElem?_append_left (by rwa [List.length_map]), List.getElem?_map]

theorem getElem?_ladderChain_annihilation {k : ℕ} (hk : k < ann.length) :
    (ladderChain s cre ann)[cre.length + ann.length - 1 - k]? =
      ann[k]?.map (.elementary ⟨s, .annihilation⟩) := by
  have hplace : cre.length + ann.length - 1 - k - cre.length = ann.length - 1 - k := by omega
  have hback : ann.length - 1 - (ann.length - 1 - k) = k := by omega
  rw [ladderChain, List.getElem?_append_right (by rw [List.length_map]; omega), List.length_map,
    List.getElem?_map, hplace, List.getElem?_reverse (by omega), hback]

end Ladders

/-- The chain of an overlap. -/
def overlapChain (c : IndexContext) (n : ℕ) : List ChainOperator :=
  ladderChain .fermion (drawnBy c n .occupied) (drawnBy c n .virtual) ++
    ladderChain .fermion (drawnBy (afterExcitation c n) n .virtual)
      (drawnBy (afterExcitation c n) n .occupied)

theorem chain_overlapWord (c : IndexContext) (n : ℕ) :
    (overlapWord c n).chain = overlapChain c n := by
  rw [Word.chain, operators_overlapWord, overlapLadders, List.filterMap_append, filterMap_ladders,
    filterMap_ladders, overlapChain]

theorem wellFormed_overlapWord (c : IndexContext) (n : ℕ) : (overlapWord c n).WellFormed := by
  rw [Word.WellFormed, operators_overlapWord]
  exact List.forall_mem_append.mpr
    ⟨isSome_read?_of_mem_ladders _ _ _, isSome_read?_of_mem_ladders _ _ _⟩

theorem length_overlapChain (c : IndexContext) (n : ℕ) : (overlapChain c n).length = 4 * n := by
  simp only [overlapChain, List.length_append, length_ladderChain, length_drawnBy]
  omega

theorem getElem?_drawnBy (c : IndexContext) {n : ℕ} (s : Space) (k : Fin n) :
    (drawnBy c n s)[(k : ℕ)]? = some (.after s (c.drawn s) k) := by
  simp [drawnBy]

/-- The operator where a line starts. -/
theorem getElem?_start (c : IndexContext) {n : ℕ} (x : Line n) :
    (overlapChain c n)[x.start]? = some (.elementary ⟨.fermion, x.action⟩ (x.index c)) := by
  have hfirst : x.start < (ladderChain .fermion (drawnBy c n .occupied)
      (drawnBy c n .virtual)).length := by
    have hx := x.start_lt
    simp only [length_ladderChain, length_drawnBy]
    omega
  rw [overlapChain, List.getElem?_append_left hfirst]
  rcases x with k | k
  · have hk : (k : ℕ) < (drawnBy c n .virtual).length := by simp [length_drawnBy]
    have hchain := getElem?_ladderChain_annihilation .fermion (drawnBy c n .occupied) _ hk
    simp only [length_drawnBy, getElem?_drawnBy, ← Nat.two_mul] at hchain
    exact hchain
  · have hk : (k : ℕ) < (drawnBy c n .occupied).length := by simp [length_drawnBy]
    have hchain := getElem?_ladderChain_creation .fermion _ (drawnBy c n .virtual) hk
    rw [getElem?_drawnBy] at hchain
    exact hchain

/-- The operator where a line stops. -/
theorem getElem?_stop (c : IndexContext) {n : ℕ} (x : Line n) :
    (overlapChain c n)[x.stop]? =
      some (.elementary ⟨.fermion, x.action.adjoint⟩ (x.index (afterExcitation c n))) := by
  have hlength : (ladderChain .fermion (drawnBy c n .occupied)
      (drawnBy c n .virtual)).length = 2 * n := by
    simp only [length_ladderChain, length_drawnBy]
    omega
  have hx := x.le_stop
  rw [overlapChain, List.getElem?_append_right (by omega), hlength]
  rcases x with k | k
  · have hk : (k : ℕ) < (drawnBy (afterExcitation c n) n .virtual).length := by
      simp [length_drawnBy]
    have hchain := getElem?_ladderChain_creation .fermion _
      (drawnBy (afterExcitation c n) n .occupied) hk
    rw [getElem?_drawnBy] at hchain
    rw [Line.stop, Nat.add_sub_cancel_left]
    exact hchain
  · have hk : (k : ℕ) < (drawnBy (afterExcitation c n) n .occupied).length := by
      simp [length_drawnBy]
    have hchain := getElem?_ladderChain_annihilation .fermion
      (drawnBy (afterExcitation c n) n .virtual) _ hk
    have hplace : 4 * n - 1 - (k : ℕ) - 2 * n = 2 * n - 1 - k := by omega
    simp only [length_drawnBy, getElem?_drawnBy, ← Nat.two_mul] at hchain
    rw [Line.stop, hplace]
    exact hchain

end Builder

end SecondQuant
