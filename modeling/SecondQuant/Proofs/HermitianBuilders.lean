import SecondQuant.Proofs.BuilderIndices
import SecondQuant.Proofs.RelabelledReduction

/-!
# Hermitian builders

The adjoint of a normal-ordered operator is the operator with creations and annihilations exchanged,
but on the dummies of the first.  An operator that is built with the spaces exchanged draws its
dummies in the other order: between the two lists the order of the numbers changes, inside each list
it does not.  So the canonical forms of both amplitudes have the same sign, both terms are read
letter by letter alike, and the renumbering makes them the same term.

* `Drawing.drawBoth`, `Drawing.exists_relabels_drawBoth` — the draws of an operator, in both orders.
* `Builder.renumberDummies_normalProduct_map` — **an operator on relabelled lists**.
* `Builder.renumberDummies_adjoint_normalOrdered` — the adjoint of a normal-ordered operator.
* `Expr.IsHermitian`, `Expr.isHermitian_weightedSum` — trees that are their own adjoints up to the
  numbers of their dummies, and their sums.
* `Builder.hermitian_builders` — the adjoint of every builder of that shape, and the Hamiltonians.
-/

namespace SecondQuant

/-! ## Draws in both orders -/

/-- The renaming that acts as one renaming on a list and as another one elsewhere. -/
def Renaming.either (is : List Index) (r r' : Renaming) : Renaming := fun i =>
  if i ∈ is then r i else r' i

namespace Drawing

/-- Two runs of draws, one after the other. -/
def drawBoth (ss ts : List Space) : Drawing (List Index × List Index) := do
  let is ← drawEach ss
  let js ← drawEach ts
  return (is, js)

theorem nodup_drawBoth (ss ts : List Space) (c : IndexContext) :
    (((drawBoth ss ts).run c).1.1 ++ ((drawBoth ss ts).run c).1.2).Nodup :=
  ((handedOut_drawEach ss c).append (handedOut_drawEach ts _)).nodup

/-- Two runs of draws in the two orders, on two contexts: a single renaming takes the lists of one
to those of the other and relabels each of them for itself. -/
theorem exists_relabels_drawBoth (ss ts : List Space) (c c' : IndexContext) :
    ∃ r : Renaming, Relabels r ((drawBoth ss ts).run c').1.1 ∧
      Relabels r ((drawBoth ss ts).run c').1.2 ∧
      ((drawBoth ts ss).run c).1 =
        (((drawBoth ss ts).run c').1.2.map r, ((drawBoth ss ts).run c').1.1.map r) := by
  -- The first list of `drawBoth ss ts` is the second one of `drawBoth ts ss`.
  obtain ⟨hfirst, hfirsts⟩ := drawEach_recount ss c' ((drawEach ts).run c).2
  obtain ⟨hsecond, hseconds⟩ := drawEach_recount ts ((drawEach ss).run c').2 c
  have hdisjoint := List.disjoint_of_nodup_append (nodup_drawBoth ss ts c')
  let r := Renaming.either ((drawBoth ss ts).run c').1.1
    (c'.recount ((drawEach ts).run c).2) (((drawEach ss).run c').2.recount c)
  have hleft : ∀ i ∈ ((drawBoth ss ts).run c').1.1, r i = c'.recount _ i := fun i hi =>
    if_pos hi
  have hright : ∀ i ∈ ((drawBoth ss ts).run c').1.2,
      r i = ((drawEach ss).run c').2.recount c i := fun i hi =>
    if_neg fun hi' => hdisjoint hi' hi
  refine ⟨r, hfirst.congr hleft, hsecond.congr hright, Prod.ext ?_ ?_⟩
  · exact hseconds.trans (List.map_congr_left hright).symm
  · exact hfirsts.trans (List.map_congr_left hleft).symm

end Drawing

/-! ## A c-number before operators -/

/-- A c-number before operators is read first. -/
theorem Word.reading_normal {t : Tensor} {os : Word} (ht : t.isOperator = false)
    (hos : ∀ o ∈ os, o.isOperator = true) : (normal (t :: os)).reading = t :: os := by
  rw [reading, cNumbers_normal_cons ht hos, operators_normal_cons ht hos]
  rfl

/-- Other numbers for the dummies of a c-number before operators do not show once they are
renumbered. -/
theorem Word.renumberTerm_normal_map {t : Tensor} {os : Word} {r : Renaming}
    (ht : t.isOperator = false) (hos : ∀ o ∈ os, o.isOperator = true)
    (h : Renumbers r (normal (t :: os)).indices) :
    (normal (t.rename r :: os.map (Tensor.rename r))).monomial.renumberTerm =
      (normal (t :: os)).monomial.renumberTerm := by
  refine renumberTerm_eq_of_reading h ?_
  rw [reading_normal ht hos]
  exact reading_normal ht (List.forall_mem_map.mpr hos)

/-- The renumbering of a tree with a single word. -/
theorem Expr.renumberDummies_of_words {e : Expr} (he : e.IsCanonical) {k : ℚ} {w : Word}
    (hw : e.words = [(k, w)]) :
    e.renumberDummies = weightedSum [(k, w.monomial.renumberTerm)] := by
  rw [renumberDummies, terms_eq_words he, hw]
  rfl

namespace Builder

open Drawing

variable (name : String) (s : Statistics)

theorem map_rename_ladders (r : Renaming) (cre ann : List Index) :
    (ladders s cre ann).map (Tensor.rename r) = ladders s (cre.map r) (ann.map r) := by
  simp only [ladders, List.map_append, List.map_map, ← List.map_reverse]
  rfl

/-- **An operator on relabelled lists.**  A normal-ordered operator on two lists of indices, each of
them relabelled for itself, becomes the same operator when its dummies are renumbered. -/
theorem renumberDummies_normalProduct_map {cre ann : List Index} {r : Renaming}
    (hcre : Relabels r cre) (hann : Relabels r ann) (hnodup : ((cre ++ ann).map r).Nodup) :
    (normalProduct name s (cre.map r) (ann.map r)).renumberDummies =
      (normalProduct name s cre ann).renumberDummies := by
  have hoperators := isOperator_of_mem_ladders s cre ann
  -- The canonical forms of the two amplitudes differ by the renaming only, not by a sign.
  obtain ⟨k, u, hu⟩ := Tensor.exists_canonical?_of_nodup
    (t := amplitude name s cre ann) hnodup.of_map
  have hu' : (amplitude name s (cre.map r) (ann.map r)).canonical? = some (k, u.rename r) := by
    rw [← rename_amplitude, Tensor.canonical?_rename hcre hann, hu]
    rfl
  have hword := Expr.words_eq_of_denote (weight_ne_zero _ _) (denote_normalProduct name s cre ann)
    (isCanonical_of_mem_ladders s cre ann) hu
  have hword' := Expr.words_eq_of_denote (weight_ne_zero _ _)
    (denote_normalProduct name s (cre.map r) (ann.map r)) (isCanonical_of_mem_ladders s _ _) hu'
  have hcNumber : u.isOperator = false := Tensor.isOperator_of_canonical? hu
  rw [List.length_map, List.length_map] at hword'
  rw [Expr.renumberDummies_of_words (isCanonical_normalProduct _ _ _ _) hword',
    Expr.renumberDummies_of_words (isCanonical_normalProduct _ _ _ _) hword]
  have hindices : ∀ i ∈ (Word.normal (u :: ladders s cre ann)).indices, i ∈ cre ++ ann := by
    intro i hi
    rcases Word.mem_indices_cons.mp (Word.mem_indices_normal.mp hi) with hi | hi
    · exact (Tensor.indices_perm_of_canonical? hu).mem_iff.mp hi
    · exact (indices_ladders_perm s cre ann).mem_iff.mp hi
  rw [← map_rename_ladders, Word.renumberTerm_normal_map hcNumber hoperators
    ((Renumbers.append hcre hann hnodup).mono hindices)]

/-- The adjoint of a normal-ordered operator is, up to the numbers of its dummies, the operator
that is built with the spaces exchanged, on any context. -/
theorem renumberDummies_adjoint_normalOrdered (cre ann : List Space) (c c' : IndexContext) :
    ((normalOrdered name s cre ann).run c).1.adjoint.renumberDummies =
      ((normalOrdered name s ann cre).run c').1.renumberDummies := by
  have hrun : ∀ (ss ts : List Space) (b : IndexContext), ((normalOrdered name s ss ts).run b).1 =
      normalProduct name s ((drawBoth ss ts).run b).1.1 ((drawBoth ss ts).run b).1.2 :=
    fun _ _ _ => rfl
  obtain ⟨r, hann, hcre, hdrawn⟩ := exists_relabels_drawBoth ann cre c c'
  have hnodup := List.nodup_append_comm.mp (nodup_drawBoth cre ann c)
  rw [hdrawn, ← List.map_append] at hnodup
  rw [hrun, adjoint_normalProduct, hdrawn, hrun]
  exact renumberDummies_normalProduct_map name s hann hcre hnodup

end Builder

/-! ## Hermitian expressions -/

namespace Expr

/-- Whether a tree is its own adjoint up to the numbers of its dummies. -/
def IsHermitian (e : Expr) : Prop :=
  e.adjoint.renumberDummies = e.renumberDummies

theorem isLinear_adjoint : IsLinear adjoint where
  isCanonical _ := isCanonical_adjoint _
  map_combination x y _ _ _ _ := adjoint_combination x y _ _

/-- A weighted sum of Hermitian trees is Hermitian; the dummies of its members may coincide. -/
theorem isHermitian_weightedSum {ts : List Term} (hcan : ∀ t ∈ ts, t.2.IsCanonical)
    (h : ∀ t ∈ ts, t.2.IsHermitian) : (weightedSum ts).IsHermitian := by
  rw [IsHermitian, (isLinear_renumberDummies.comp isLinear_adjoint).map_weightedSum hcan,
    isLinear_renumberDummies.map_weightedSum hcan]
  exact congrArg weightedSum (List.map_congr_left fun t ht => congrArg (Prod.mk t.1) (h t ht))

theorem isHermitian_total {es : List Expr} (hcan : ∀ e ∈ es, e.IsCanonical)
    (h : ∀ e ∈ es, e.IsHermitian) : (total es).IsHermitian :=
  isHermitian_weightedSum (List.forall_mem_map.mpr hcan) (List.forall_mem_map.mpr h)

theorem isHermitian_zero : zero.IsHermitian := by
  have hzero : zero.adjoint = zero := by decide +kernel
  rw [IsHermitian, hzero]

end Expr

/-! ## Hamiltonians -/

namespace Builder

open Drawing

/-- A normal-ordered operator with the same spaces on both sides is Hermitian. -/
theorem yields_isHermitian_normalOrdered (name : String) (s : Statistics) (spaces : List Space) :
    Yields Expr.IsHermitian (normalOrdered name s spaces spaces) :=
  fun c => renumberDummies_adjoint_normalOrdered name s spaces spaces c c

theorem yields_isHermitian_hamiltonian (n : ℕ) : Yields Expr.IsHermitian (hamiltonian n) := by
  cases n with
  | zero => exact yields_pure Expr.isHermitian_zero
  | succ n => exact yields_isHermitian_normalOrdered _ _ _

theorem yields_isHermitian_photonHamiltonian (n : ℕ) :
    Yields Expr.IsHermitian (photonHamiltonian n) := by
  cases n with
  | zero => exact yields_pure Expr.isHermitian_zero
  | succ n => exact yields_isHermitian_normalOrdered _ _ _

theorem yields_isHermitian_upTo {build : ℕ → Drawing Expr}
    (hcan : ∀ k, Yields Expr.IsCanonical (build k))
    (h : ∀ k, Yields Expr.IsHermitian (build k)) (n : ℕ) : Yields Expr.IsHermitian (upTo build n) :=
  fun c => Expr.isHermitian_total (yields_mapM (fun k _ => hcan (k + 1)) c)
    (yields_mapM (fun k _ => h (k + 1)) c)

end Builder

end SecondQuant
