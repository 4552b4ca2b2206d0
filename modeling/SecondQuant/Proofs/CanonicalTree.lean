import SecondQuant.Proofs.NormalForm

/-!
# Canonical trees

A canonical tree is a constant, a canonical tensor, a product of an optional constant, sorted
c-numbers and operators, or an ascending sum of such products without constants.  Canonical trees
are exactly the trees of canonical sums of words, and exactly the fixed points of `Expr.canonical`.

* `Expr.IsCanonical` — the shape, spelled out on the tree.
* `Expr.isCanonical_iff` — canonical trees are the trees of canonical sums of words.
* `Expr.isCanonical_canonical`, `Expr.canonical_eq_self` — canonical forms are canonical, and a
  canonical tree is its own canonical form.
* `Expr.eq_of_denote_eq` — canonical trees that denote the same element are the same tree.
* `WordSum.terms_toExpr`, `Word.factors_monomial` — the decompositions of a canonical tree.
-/

namespace SecondQuant

namespace Expr

/-! ## The shape -/

/-- Whether factors are canonical c-numbers in ascending order followed by canonical operators. -/
def AreFactors (es : List Expr) : Prop :=
  ∃ cs os : List Tensor, es = (cs ++ os).map tensor ∧
    (∀ t ∈ cs, t.IsCanonical ∧ t.isOperator = false) ∧
    (∀ t ∈ os, t.IsCanonical ∧ t.isOperator = true) ∧
    cs.Pairwise fun s t => ((tensor s).cmp (tensor t)).isLE

/-- Whether the tree is a monomial: 1, a canonical tensor, or a product without a constant. -/
inductive IsMonomial : Expr → Prop
  | one : IsMonomial one
  | tensor {t : Tensor} (h : t.IsCanonical) : IsMonomial (tensor t)
  | prod {es : List Expr} (h : AreFactors es) (two : 2 ≤ es.length) : IsMonomial (prod es)

/-- Whether the tree is canonical. -/
inductive IsCanonical : Expr → Prop
  | const (r : ℚ) : IsCanonical (const r)
  | tensor {t : Tensor} (h : t.IsCanonical) : IsCanonical (tensor t)
  | prod {es : List Expr} (h : AreFactors es) (two : 2 ≤ es.length) : IsCanonical (prod es)
  | scaled {c : ℚ} {es : List Expr} (ne_zero : c ≠ 0) (ne_one : c ≠ 1) (h : AreFactors es)
      (two : 2 ≤ (Expr.const c :: es).length) : IsCanonical (prod (Expr.const c :: es))
  | sum {ts : List Term} (two : 2 ≤ ts.length)
      (ascending : ts.Pairwise fun s t => s.2.cmp t.2 = .lt) (ne_zero : ∀ t ∈ ts, t.1 ≠ 0)
      (monomial : ∀ t ∈ ts, t.2.IsMonomial) : IsCanonical (sum ts)

theorem IsMonomial.isCanonical {m : Expr} (h : m.IsMonomial) : m.IsCanonical := by
  cases h with
  | one => exact .const 1
  | tensor h => exact .tensor h
  | prod h two => exact .prod h two

/-! ## Monomials are words -/

/-- The factors of a product are the letters of a canonical word. -/
theorem areFactors_iff {es : List Expr} :
    AreFactors es ↔ ∃ w : Word, w.IsCanonical ∧ es = w.map tensor := by
  constructor
  · rintro ⟨cs, os, rfl, hcs, hos, hasc⟩
    have hc : Word.cNumbers (cs ++ os) = cs := by
      rw [Word.cNumbers, List.filter_append, List.filter_eq_self.mpr fun t ht => by simp [hcs t ht],
        List.filter_eq_nil_iff.mpr fun t ht => by simp [hos t ht], List.append_nil]
    have ho : Word.operators (cs ++ os) = os := by
      rw [Word.operators, List.filter_append,
        List.filter_eq_nil_iff.mpr fun t ht => by simp [hcs t ht],
        List.filter_eq_self.mpr fun t ht => (hos t ht).2, List.nil_append]
    have hasc : cs.Pairwise fun s t => (compare s t).isLE := hasc
    have hsorted : sortBy compare cs = cs := sortBy_eq_self hasc
    refine ⟨cs ++ os, ⟨?_, ?_⟩, rfl⟩
    · rw [Word.normal_eq, hc, ho, hsorted]
    · exact List.forall_mem_append.mpr ⟨fun t ht => (hcs t ht).1, fun t ht => (hos t ht).1⟩
  · rintro ⟨w, ⟨hw, hcan⟩, rfl⟩
    have hasc : (sortBy compare w.cNumbers).Pairwise fun s t => (compare s t).isLE :=
      pairwise_sortBy w.cNumbers
    refine ⟨sortBy compare w.cNumbers, w.operators, ?_, fun t ht => ?_, fun t ht => ?_, hasc⟩
    · rw [← Word.normal_eq, hw]
    · have hmem := mem_sortBy.mp ht
      exact ⟨hcan t (List.mem_filter.mp hmem).1, Word.isOperator_of_mem_cNumbers hmem⟩
    · exact ⟨hcan t (List.mem_filter.mp ht).1, Word.isOperator_of_mem_operators ht⟩

theorem areFactors_map {w : Word} (hw : w.IsCanonical) : AreFactors (w.map tensor) :=
  areFactors_iff.mpr ⟨w, hw, rfl⟩

theorem isMonomial_monomial {w : Word} (hw : w.IsCanonical) : w.monomial.IsMonomial := by
  match w, hw with
  | [], _ => exact .one
  | [t], hw => exact .tensor (hw.2 t (List.mem_singleton.mpr rfl))
  | s :: t :: w, hw => exact .prod (areFactors_map hw) (by simp)

/-- A product of at least two tensors is the monomial of its word. -/
theorem prod_map_tensor {w : Word} (two : 2 ≤ (w.map tensor).length) :
    prod (w.map tensor) = w.monomial := by
  match w, two with
  | _ :: _ :: _, _ => rfl

/-- Monomials are the products of canonical words. -/
theorem isMonomial_iff {m : Expr} :
    m.IsMonomial ↔ ∃ w : Word, w.IsCanonical ∧ m = w.monomial := by
  constructor
  · intro h
    cases h with
    | one => exact ⟨[], Word.built_nil, rfl⟩
    | @tensor t h => exact ⟨[t], Word.built_singleton h, rfl⟩
    | prod h two =>
        obtain ⟨w, hw, rfl⟩ := areFactors_iff.mp h
        exact ⟨w, hw, prod_map_tensor two⟩
  · rintro ⟨w, hw, rfl⟩
    exact isMonomial_monomial hw

/-! ## Coefficients in front of monomials -/

theorem scaled_one (c : ℚ) : scaled c one = const c := by
  unfold scaled
  split
  · next h => rw [h, zero]
  · split
    · next h => rw [h, one]
    · exact congrArg const (mul_one c)

theorem one_scaled (m : Expr) : scaled 1 m = m := by
  unfold scaled
  rw [if_neg one_ne_zero, if_pos rfl]

/-- A coefficient other than 0 and 1 becomes the first factor. -/
theorem scaled_monomial {c : ℚ} (h0 : c ≠ 0) (h1 : c ≠ 1) {w : Word} (hw : w ≠ []) :
    scaled c w.monomial = prod (const c :: w.map tensor) := by
  match w, hw with
  | [t], _ =>
      unfold scaled
      rw [if_neg h0, if_neg h1]
      rfl
  | s :: t :: w, _ =>
      unfold scaled
      rw [if_neg h0, if_neg h1]
      rfl

/-! ## Canonical trees are sums of words -/

theorem isCanonical_scaled {c : ℚ} {w : Word} (hc : c ≠ 0) (hw : w.IsCanonical) :
    (scaled c w.monomial).IsCanonical := by
  by_cases h1 : c = 1
  · rw [h1, one_scaled]
    exact (isMonomial_monomial hw).isCanonical
  · match w, hw with
    | [], _ =>
        have hconst : scaled c (Word.monomial []) = const c := scaled_one c
        rw [hconst]
        exact .const c
    | t :: w, hw =>
        rw [scaled_monomial hc h1 (List.cons_ne_nil t w)]
        exact .scaled hc h1 (areFactors_map hw) (by simp)

theorem isCanonical_sum {p : WordSum} (hp : p.IsCanonical) (two : 2 ≤ p.length) :
    (sum (p.map fun t => (t.1, t.2.monomial))).IsCanonical := by
  refine .sum (by rwa [List.length_map]) (List.pairwise_map.mpr ?_) ?_ ?_
  · exact hp.1.1.imp fun {a b} h => by rw [Word.cmp_monomial, h]
  · exact List.forall_mem_map.mpr hp.1.2
  · exact List.forall_mem_map.mpr fun t ht => isMonomial_monomial (hp.2 t ht)

theorem isCanonical_toExpr {p : WordSum} (hp : p.IsCanonical) : p.toExpr.IsCanonical := by
  match p, hp with
  | [], _ => exact .const 0
  | [(c, w)], hp =>
      exact isCanonical_scaled (Combination.reduced_cons.mp hp.1).1.1
        (hp.2 (c, w) (List.mem_singleton.mpr rfl))
  | s :: t :: p, hp => exact isCanonical_sum hp (by simp)

/-- A sum of at least two monomials is the tree of its words. -/
theorem sum_monomials {p : WordSum} (two : 2 ≤ (p.map fun t => (t.1, t.2.monomial)).length) :
    sum (p.map fun t => (t.1, t.2.monomial)) = p.toExpr := by
  match p, two with
  | _ :: _ :: _, _ => rfl

theorem exists_words {ts : List Term} (h : ∀ t ∈ ts, t.2.IsMonomial) :
    ∃ p : WordSum, (∀ t ∈ p, t.2.IsCanonical) ∧ ts = p.map fun t => (t.1, t.2.monomial) := by
  induction ts with
  | nil => exact ⟨[], List.forall_mem_nil _, rfl⟩
  | cons t ts ih =>
      obtain ⟨ht, hts⟩ := List.forall_mem_cons.mp h
      obtain ⟨p, hp, rfl⟩ := ih hts
      obtain ⟨w, hw, hm⟩ := isMonomial_iff.mp ht
      exact ⟨(t.1, w) :: p, List.forall_mem_cons.mpr ⟨hw, hp⟩, by rw [List.map_cons, ← hm]⟩

/-- Canonical trees are the trees of canonical sums of words. -/
theorem isCanonical_iff {e : Expr} :
    e.IsCanonical ↔ ∃ p : WordSum, p.IsCanonical ∧ e = p.toExpr := by
  constructor
  · intro h
    cases h with
    | const r =>
        refine ⟨WordSum.ofRat r, WordSum.built_ofRat r, ?_⟩
        rw [WordSum.ofRat, Combination.single]
        split
        · next h =>
            obtain rfl : r = 0 := h
            rfl
        · exact (scaled_one r).symm
    | @tensor t h =>
        exact ⟨[(1, [t])], WordSum.built_single one_ne_zero (Word.built_singleton h),
          (one_scaled (tensor t)).symm⟩
    | prod h two =>
        obtain ⟨w, hw, rfl⟩ := areFactors_iff.mp h
        exact ⟨[(1, w)], WordSum.built_single one_ne_zero hw,
          (prod_map_tensor two).trans (one_scaled w.monomial).symm⟩
    | @scaled c es h0 h1 h two =>
        obtain ⟨w, hw, rfl⟩ := areFactors_iff.mp h
        have hne : w ≠ [] := by
          rintro rfl
          simp at two
        exact ⟨[(c, w)], WordSum.built_single h0 hw, (scaled_monomial h0 h1 hne).symm⟩
    | sum two asc h0 hm =>
        obtain ⟨p, hp, rfl⟩ := exists_words hm
        refine ⟨p, ⟨⟨?_, ?_⟩, hp⟩, sum_monomials two⟩
        · exact (List.pairwise_map.mp asc).imp fun {a b} h => by rwa [Word.cmp_monomial] at h
        · exact fun t ht => h0 _ (List.mem_map_of_mem ht)
  · rintro ⟨p, hp, rfl⟩
    exact isCanonical_toExpr hp

/-! ## Fixed points -/

/-- The canonical form of a tree is canonical. -/
theorem isCanonical_canonical (e : Expr) : e.canonical.IsCanonical :=
  isCanonical_toExpr (isCanonical_canonicalWords_expand e)

/-- Canonical trees that denote the same element of the algebra are the same tree. -/
theorem eq_of_denote_eq {d e : Expr} (hd : d.IsCanonical) (he : e.IsCanonical)
    (h : d.denote = e.denote) : d = e := by
  obtain ⟨p, hp, rfl⟩ := isCanonical_iff.mp hd
  obtain ⟨q, hq, rfl⟩ := isCanonical_iff.mp he
  rw [denote, denote, WordSum.eval_toExpr, WordSum.eval_toExpr] at h
  rw [WordSum.eq_of_eval_gen hp hq h]

/-- A canonical tree is its own canonical form. -/
theorem canonical_eq_self {e : Expr} (h : e.IsCanonical) : e.canonical = e :=
  eq_of_denote_eq (isCanonical_canonical e) h (denote_canonical e)

/-- A tree is its own canonical form exactly when it is canonical. -/
theorem canonical_eq_self_iff {e : Expr} : e.canonical = e ↔ e.IsCanonical :=
  ⟨fun h => h ▸ isCanonical_canonical e, canonical_eq_self⟩

end Expr

/-! ## Decompositions -/

/-- The factors of a monomial are the letters of its word. -/
theorem Word.factors_monomial (w : Word) : w.monomial.factors = w.map Expr.tensor := by
  match w with
  | [] => rfl
  | [_] => rfl
  | _ :: _ :: _ => rfl

theorem Word.terms_monomial (w : Word) : w.monomial.terms = [(1, w.monomial)] := by
  match w with
  | [] => rfl
  | [_] => rfl
  | _ :: _ :: _ => rfl

theorem Word.terms_scaled {c : ℚ} (hc : c ≠ 0) (w : Word) :
    (Expr.scaled c w.monomial).terms = [(c, w.monomial)] := by
  by_cases h1 : c = 1
  · rw [h1, Expr.one_scaled, terms_monomial]
  · match w with
    | [] =>
        have hconst : Expr.scaled c (monomial []) = Expr.const c := Expr.scaled_one c
        have hz : (Expr.const c).isZero = false := by simpa [Expr.isZero] using hc
        rw [hconst]
        show (if (Expr.const c).isZero then [] else [(c, Expr.one)]) = [(c, Expr.one)]
        simp [hz]
    | t :: w =>
        rw [Expr.scaled_monomial hc h1 (List.cons_ne_nil t w)]
        rfl

/-- The terms of a canonical tree are the members of its sum of words. -/
theorem WordSum.terms_toExpr {p : WordSum} (hp : p.IsCanonical) :
    p.toExpr.terms = p.map fun t => (t.1, t.2.monomial) := by
  match p, hp with
  | [], _ => rfl
  | [(c, w)], hp => exact Word.terms_scaled (Combination.reduced_cons.mp hp.1).1.1 w
  | _ :: _ :: _, _ => rfl

namespace Expr

theorem isMonomial_of_mem_terms {e : Expr} (h : e.IsCanonical) {t : Term} (ht : t ∈ e.terms) :
    t.2.IsMonomial := by
  obtain ⟨p, hp, rfl⟩ := isCanonical_iff.mp h
  rw [WordSum.terms_toExpr hp] at ht
  obtain ⟨s, hs, rfl⟩ := List.mem_map.mp ht
  exact isMonomial_monomial (hp.2 s hs)

theorem factorLeaves_map_tensor (ts : List Tensor) : factorLeaves (ts.map tensor) = ts := by
  induction ts with
  | nil => rfl
  | cons t ts ih => rw [List.map_cons, factorLeaves, ih, leaves, List.singleton_append]

theorem isCanonical_of_mem_factorLeaves {es : List Expr} (h : AreFactors es) :
    ∀ t ∈ factorLeaves es, t.IsCanonical := by
  obtain ⟨w, hw, rfl⟩ := areFactors_iff.mp h
  rw [factorLeaves_map_tensor]
  exact hw.2

theorem isCanonical_of_mem_leaves_monomial {m : Expr} (h : m.IsMonomial) :
    ∀ t ∈ m.leaves, t.IsCanonical := by
  cases h with
  | one => exact List.forall_mem_nil _
  | tensor h => exact fun s hs => List.mem_singleton.mp hs ▸ h
  | prod h _ => exact isCanonical_of_mem_factorLeaves h

theorem isCanonical_of_mem_termLeaves {ts : List Term} (h : ∀ t ∈ ts, t.2.IsMonomial) :
    ∀ t ∈ termLeaves ts, t.IsCanonical := by
  induction ts with
  | nil => exact List.forall_mem_nil _
  | cons t ts ih =>
      obtain ⟨ht, hts⟩ := List.forall_mem_cons.mp h
      exact List.forall_mem_append.mpr ⟨isCanonical_of_mem_leaves_monomial ht, ih hts⟩

/-- The tensors of a canonical tree are canonical. -/
theorem isCanonical_of_mem_leaves {e : Expr} (h : e.IsCanonical) :
    ∀ t ∈ e.leaves, t.IsCanonical := by
  cases h with
  | const r => exact List.forall_mem_nil _
  | tensor h => exact fun s hs => List.mem_singleton.mp hs ▸ h
  | prod h _ => exact isCanonical_of_mem_factorLeaves h
  | @scaled c es _ _ h _ =>
      show ∀ t ∈ factorLeaves es, t.IsCanonical
      exact isCanonical_of_mem_factorLeaves h
  | sum _ _ _ h => exact isCanonical_of_mem_termLeaves h

end Expr

end SecondQuant
