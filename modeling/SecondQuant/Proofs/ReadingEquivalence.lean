import Mathlib.Data.List.Forall2
import Mathlib.Data.Set.Function
import SecondQuant.Proofs.RelabelledReduction

/-!
# Terms that are read alike

Renumbering numbers the dummies of a term as it meets them.  If two terms, factor by factor and
index by index in reading order, differ by the numbers of their dummies only, both passes meet the
same dummies at the same places, and the two terms become one, also inside a sum, where their
coefficients are added.

* `Index.Corresponds`, `Tensor.Corresponds`, `Expr.Corresponds` — equal up to the numbers of
  dummies.
* `Word.renumbers_of_corresponds` — a correspondence that joins no dummies gives them other numbers.
* `renumberDummies_corresponding` — corresponding terms become one term and merge in every sum.
-/

namespace SecondQuant

variable {r : Renaming}

/-! ## Correspondence -/

/-- Whether an external index is the same index, and a dummy the dummy of the same space that a
renaming makes of it. -/
def Index.Corresponds (r : Renaming) (i j : Index) : Prop :=
  i.external = true ∧ j = i ∨
    i.external = false ∧ j = r i ∧ j.space = i.space ∧ j.external = false

/-- Whether two tensors agree in name, symmetry and tag, and their lists index by index up to the
numbers of dummies. -/
@[mk_iff]
structure Tensor.Corresponds (r : Renaming) (s t : Tensor) : Prop where
  name : t.name = s.name
  symmetry : t.symmetry = s.symmetry
  ladder : t.ladder = s.ladder
  upper : List.Forall₂ (Index.Corresponds r) s.upper t.upper
  lower : List.Forall₂ (Index.Corresponds r) s.lower t.lower

/-- Whether two factors are tensors that agree up to the numbers of dummies. -/
def Expr.Corresponds (r : Renaming) (e f : Expr) : Prop :=
  ∃ s t : Tensor, e = tensor s ∧ f = tensor t ∧ s.Corresponds r t

/-! ## Lists that agree member by member -/

section Lists

variable {α β : Type} {R : α → β → Prop} {l : List α} {l' : List β}

theorem exists_rel_of_forall₂ (h : List.Forall₂ R l l') {a : α} (ha : a ∈ l) : ∃ b, R a b := by
  induction h with
  | nil => cases ha
  | cons hab _ ih =>
      rcases List.mem_cons.mp ha with rfl | ha
      · exact ⟨_, hab⟩
      · exact ih ha

theorem eq_map_of_forall₂ {f : α → β} (hR : ∀ a b, R a b → b = f a) (h : List.Forall₂ R l l') :
    l' = l.map f := by
  induction h with
  | nil => rfl
  | cons hab _ ih => rw [List.map_cons, ← ih, ← hR _ _ hab]

end Lists

/-! ## Corresponding letters -/

/-- The renaming on dummies, with external indices left alone. -/
def Renaming.onDummies (r : Renaming) : Renaming := fun i =>
  if i.external then i else r i

namespace Index.Corresponds

variable {i j : Index}

theorem eq_onDummies (h : i.Corresponds r j) : j = r.onDummies i := by
  rcases h with ⟨hi, rfl⟩ | ⟨hi, rfl, _⟩
  · simp [Renaming.onDummies, hi]
  · simp [Renaming.onDummies, hi]

theorem space_eq (h : i.Corresponds r j) : j.space = i.space := by
  rcases h with ⟨_, rfl⟩ | ⟨_, _, hspace, _⟩
  · rfl
  · exact hspace

theorem external_eq (h : i.Corresponds r j) : j.external = i.external := by
  rcases h with ⟨_, rfl⟩ | ⟨hi, _, _, hj⟩
  · rfl
  · rw [hi, hj]

end Index.Corresponds

namespace Tensor.Corresponds

variable {s t : Tensor}

theorem eq_rename (h : s.Corresponds r t) : t = s.rename r.onDummies := by
  obtain ⟨hname, hsymmetry, hladder, hupper, hlower⟩ := h
  have heq := fun i j => Index.Corresponds.eq_onDummies (r := r) (i := i) (j := j)
  have hupper := eq_map_of_forall₂ heq hupper
  have hlower := eq_map_of_forall₂ heq hlower
  cases t
  simp_all [rename]

theorem exists_of_mem (h : s.Corresponds r t) {i : Index} (hi : i ∈ s.indices) :
    ∃ j, i.Corresponds r j := by
  rcases List.mem_append.mp hi with hi | hi
  · exact exists_rel_of_forall₂ h.upper hi
  · exact exists_rel_of_forall₂ h.lower hi

end Tensor.Corresponds

namespace Word

variable {v w : Word}

/-- Corresponding letters are renamed letters. -/
theorem eq_map_of_corresponds (h : List.Forall₂ (Tensor.Corresponds r) w v) :
    v = w.map (Tensor.rename r.onDummies) :=
  eq_map_of_forall₂ (fun _ _ => Tensor.Corresponds.eq_rename) h

/-- A correspondence that joins no dummies gives them other numbers. -/
theorem renumbers_of_corresponds (h : List.Forall₂ (Tensor.Corresponds r) w v)
    (hinj : Set.InjOn r {i | i ∈ w.indices ∧ i.external = false}) :
    Renumbers r.onDummies w.indices := by
  have hindex : ∀ i ∈ w.indices, i.Corresponds r (r.onDummies i) := by
    intro i hi
    obtain ⟨t, ht, hi⟩ := mem_indices.mp hi
    obtain ⟨u, htu⟩ := exists_rel_of_forall₂ h ht
    obtain ⟨j, hj⟩ := htu.exists_of_mem hi
    rwa [← hj.eq_onDummies]
  have hkind : ∀ i ∈ w.indices, (r.onDummies i).external = i.external :=
    fun i hi => (hindex i hi).external_eq
  refine ⟨fun i _ hi => if_pos hi, fun i hi => (hindex i hi).space_eq, hkind, ?_⟩
  intro i hi j hj heq
  have hsame : i.external = j.external := by rw [← hkind i hi, heq, hkind j hj]
  cases hdummy : i.external with
  | true => simpa [Renaming.onDummies, hdummy, ← hsame] using heq
  | false =>
      refine hinj ⟨hi, hdummy⟩ ⟨hj, hsame ▸ hdummy⟩ ?_
      simpa [Renaming.onDummies, hdummy, ← hsame] using heq

end Word

/-! ## Corresponding terms -/

namespace Expr

/-- The factors of two monomials correspond when their letters do. -/
theorem forall₂_corresponds_map {v w : Word}
    (h : List.Forall₂ (Corresponds r) (w.map tensor) (v.map tensor)) :
    List.Forall₂ (Tensor.Corresponds r) w v := by
  rw [List.forall₂_map_left_iff, List.forall₂_map_right_iff] at h
  refine h.imp ?_
  rintro s t ⟨s', t', hs, ht, hst⟩
  rwa [tensor.inj hs, tensor.inj ht]

theorem renumberDummies_monomial {m : Expr} (hm : m.IsMonomial) :
    m.renumberDummies = m.renumberTerm := by
  obtain ⟨w, _, rfl⟩ := isMonomial_iff.mp hm
  rw [renumberDummies, Word.terms_monomial]
  exact weightedSum_one (isCanonical_rename _ _)

/-- Two corresponding terms become the same term. -/
theorem renumberTerm_eq_of_corresponds {m₁ m₂ : Expr} (h₁ : m₁.IsMonomial) (h₂ : m₂.IsMonomial)
    (hinj : Set.InjOn r {i | i ∈ m₁.indices ∧ i.external = false})
    (h : List.Forall₂ (Corresponds r) m₁.readingOrder m₂.readingOrder) :
    m₂.renumberTerm = m₁.renumberTerm := by
  obtain ⟨w, _, rfl⟩ := isMonomial_iff.mp h₁
  obtain ⟨v, _, rfl⟩ := isMonomial_iff.mp h₂
  rw [Word.readingOrder_monomial, Word.readingOrder_monomial] at h
  have hletters := forall₂_corresponds_map h
  rw [Word.indices_monomial] at hinj
  simp only [← Word.mem_flatMap_reading] at hinj
  refine Word.renumberTerm_eq_of_reading ?_ (Word.eq_map_of_corresponds hletters)
  exact (Word.renumbers_of_corresponds hletters hinj).mono fun _ => Word.mem_flatMap_reading.mpr

end Expr

/-- **Terms that are read alike are merged.**  Let two monomials have reading orders of the same
length that agree factor by factor in name, symmetry, tag and list lengths, and index by index in
the external indices and, up to a map that keeps spaces and joins no dummies of the first monomial,
in the dummies.  Then renumbering makes the same term of both, and in every sum of canonical trees
one term with the sum of their coefficients. -/
theorem renumberDummies_corresponding {m₁ m₂ : Expr} (h₁ : m₁.IsMonomial) (h₂ : m₂.IsMonomial)
    {r : Renaming} (hinj : Set.InjOn r {i | i ∈ m₁.indices ∧ i.external = false})
    (h : List.Forall₂ (Expr.Corresponds r) m₁.readingOrder m₂.readingOrder) :
    m₁.renumberDummies = m₂.renumberDummies ∧
      ∀ (c₁ c₂ : ℚ) (ts : List Term), (∀ t ∈ ts, t.2.IsCanonical) →
        (Expr.weightedSum ((c₁, m₁) :: (c₂, m₂) :: ts)).renumberDummies =
          Expr.weightedSum ((c₁ + c₂, m₁.renumberDummies) ::
            ts.map fun t => (t.1, t.2.renumberDummies)) := by
  have hlinear := Expr.isLinear_renumberDummies
  have heq : m₁.renumberDummies = m₂.renumberDummies := by
    rw [Expr.renumberDummies_monomial h₁, Expr.renumberDummies_monomial h₂,
      Expr.renumberTerm_eq_of_corresponds h₁ h₂ hinj h]
  refine ⟨heq, fun c₁ c₂ ts hts => ?_⟩
  have hrest : ∀ t ∈ ts.map fun t => (t.1, t.2.renumberDummies), t.2.IsCanonical :=
    List.forall_mem_map.mpr fun t ht => hlinear.isCanonical (hts t ht)
  have hone := hlinear.isCanonical h₁.isCanonical
  have hmembers : ∀ t ∈ (c₁, m₁) :: (c₂, m₂) :: ts, t.2.IsCanonical :=
    List.forall_mem_cons.mpr ⟨h₁.isCanonical, List.forall_mem_cons.mpr ⟨h₂.isCanonical, hts⟩⟩
  rw [hlinear.map_weightedSum hmembers, List.map_cons, List.map_cons, ← heq]
  refine Expr.eq_of_denote_eq (Expr.isCanonical_weightedSum ?_) (Expr.isCanonical_weightedSum ?_) ?_
  · exact List.forall_mem_cons.mpr ⟨hone, List.forall_mem_cons.mpr ⟨hone, hrest⟩⟩
  · exact List.forall_mem_cons.mpr ⟨hone, hrest⟩
  · simp only [Expr.denote_weightedSum, Combination.eval_cons, add_smul, add_assoc]

/-- A plain tensor that meets the second of two dummies first, an antisymmetric one that they share
with an external index, two tensors that differ by dummies only, and an operator. -/
def crossedTerm : Expr :=
  .prod [.tensor (.cNumber "f" [.dummy .general 2] [.dummy .general 1] .plain),
    .tensor (.cNumber "g" [.dummy .general 1, .dummy .general 2] [.free .virtual 1] .antisymmetric),
    .tensor (.cNumber "t" [.dummy .occupied 1] [] .plain),
    .tensor (.cNumber "t" [.dummy .occupied 2] [] .plain),
    .tensor (.elementary ⟨.fermion, .creation⟩ (.dummy .occupied 2))]

/-- The same term with other numbers. -/
def crossedTermRenamed : Expr :=
  .prod [.tensor (.cNumber "f" [.dummy .general 8] [.dummy .general 5] .plain),
    .tensor (.cNumber "g" [.dummy .general 5, .dummy .general 8] [.free .virtual 1] .antisymmetric),
    .tensor (.cNumber "t" [.dummy .occupied 3] [] .plain),
    .tensor (.cNumber "t" [.dummy .occupied 4] [] .plain),
    .tensor (.elementary ⟨.fermion, .creation⟩ (.dummy .occupied 4))]

/-- What both become: the antisymmetric tensor changes its sign. -/
def crossedTermRenumbered : Expr :=
  .prod [.const (-1), .tensor (.cNumber "f" [.dummy .general 1] [.dummy .general 2] .plain),
    .tensor (.cNumber "g" [.dummy .general 1, .dummy .general 2] [.free .virtual 1] .antisymmetric),
    .tensor (.cNumber "t" [.dummy .occupied 1] [] .plain),
    .tensor (.cNumber "t" [.dummy .occupied 2] [] .plain),
    .tensor (.elementary ⟨.fermion, .creation⟩ (.dummy .occupied 2))]

/-- The map of the dummies of the first term to those of the second one. -/
def crossedMap : Renaming := fun i =>
  .dummy i.space (match i.space with
    | .occupied => i.number + 2
    | _ => 3 * i.number + 2)

/-- Both terms are renumbered to the same term, and half of the first one and half of the second one
make one term. -/
theorem renumberDummies_crossedTerm :
    crossedTerm.renumberDummies = crossedTermRenamed.renumberDummies ∧
      crossedTerm.renumberDummies = crossedTermRenumbered ∧
      (Expr.weightedSum [(1 / 2, crossedTerm), (1 / 2, crossedTermRenamed)]).renumberDummies =
        crossedTermRenumbered := by
  have hcan₁ : crossedTerm.IsCanonical := Expr.canonical_eq_self_iff.mp (by decide +kernel)
  have hcan₂ : crossedTermRenamed.IsCanonical := Expr.canonical_eq_self_iff.mp (by decide +kernel)
  have h₁ : crossedTerm.IsMonomial :=
    Expr.isMonomial_of_mem_terms (t := (1, crossedTerm)) hcan₁ List.mem_cons_self
  have h₂ : crossedTermRenamed.IsMonomial :=
    Expr.isMonomial_of_mem_terms (t := (1, crossedTermRenamed)) hcan₂ List.mem_cons_self
  have hinj : Set.InjOn crossedMap {i | i ∈ crossedTerm.indices ∧ i.external = false} := by
    have hpairs : ∀ i ∈ crossedTerm.indices, ∀ j ∈ crossedTerm.indices, i.external = false →
        j.external = false → crossedMap i = crossedMap j → i = j := by decide +kernel
    exact fun i hi j hj => hpairs i hi.1 j hj.1 hi.2 hj.2
  have horder : List.Forall₂ (Expr.Corresponds crossedMap) crossedTerm.readingOrder
      crossedTermRenamed.readingOrder := by
    have hfirst : crossedTerm.readingOrder = crossedTerm.factors := by decide +kernel
    have hsecond : crossedTermRenamed.readingOrder = crossedTermRenamed.factors := by decide +kernel
    rw [hfirst, hsecond]
    simp [crossedTerm, crossedTermRenamed, Expr.factors, Expr.Corresponds, Tensor.corresponds_iff,
      Tensor.cNumber, Tensor.elementary, Index.Corresponds, Index.dummy, Index.free, crossedMap]
  obtain ⟨heq, hmerge⟩ := renumberDummies_corresponding h₁ h₂ hinj horder
  have hvalue : crossedTerm.renumberDummies = crossedTermRenumbered := by decide +kernel
  refine ⟨heq, hvalue, ?_⟩
  have hhalves : (1 / 2 + 1 / 2 : ℚ) = 1 := by norm_num
  rw [hmerge (1 / 2) (1 / 2) [] (List.forall_mem_nil _), hhalves, hvalue]
  exact Expr.weightedSum_one (Expr.canonical_eq_self_iff.mp (by decide +kernel))

end SecondQuant
