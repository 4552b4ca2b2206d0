import SecondQuant.Expr.Expand
import SecondQuant.Proofs.LinearExtension
import SecondQuant.Proofs.TensorSymmetry

/-!
# Words in normal form

The normal form of a word is its sorted c-numbers followed by its operators.  Expanding a tree
gives a reduced sum of normal words whose letters come from the expansions of its tensors; with
canonical tensors for letters the sum is called canonical.

* `Word.normal_eq` — the shape of a normal form.
* `Word.Built`, `WordSum.Built` — normal words, and reduced sums of them, over given letters.
* `Expr.built_expand` — every expansion is built of the letters that its tensors expand to.
-/

namespace SecondQuant

/-! ## The shape of a normal form -/

namespace Word

/-- The c-numbers of a word in their order. -/
def cNumbers (w : Word) : List Tensor :=
  w.filter fun t => !t.isOperator

theorem cNumbers_cons (t : Tensor) (w : Word) :
    cNumbers (t :: w) = if t.isOperator then w.cNumbers else t :: w.cNumbers := by
  rw [cNumbers, List.filter_cons]
  cases t.isOperator <;> rfl

theorem operators_cons (t : Tensor) (w : Word) :
    operators (t :: w) = if t.isOperator then t :: w.operators else w.operators := by
  rw [operators, List.filter_cons]
  rfl

theorem isOperator_of_mem_operators {t : Tensor} {w : Word} (h : t ∈ w.operators) :
    t.isOperator = true :=
  (List.mem_filter.mp h).2

theorem isOperator_of_mem_cNumbers {t : Tensor} {w : Word} (h : t ∈ w.cNumbers) :
    t.isOperator = false := by
  simpa using (List.mem_filter.mp h).2

theorem placeCmp_cNumbers {s t : Tensor} (hs : s.isOperator = false) (ht : t.isOperator = false) :
    s.placeCmp t = compare s t := by
  have h : s.placeCmp t =
      (compare s.isOperator t.isOperator).then (compare s.cNumber? t.cNumber?) := rfl
  rw [h, Tensor.cNumber?, Tensor.cNumber?, hs, ht]
  rfl

theorem not_isLE_placeCmp {s t : Tensor} (hs : s.isOperator = true) (ht : t.isOperator = false) :
    ¬(s.placeCmp t).isLE := by
  have h : s.placeCmp t =
      (compare s.isOperator t.isOperator).then (compare s.cNumber? t.cNumber?) := rfl
  rw [h, hs, ht]
  exact Bool.false_ne_true

/-- A c-number finds its place among the c-numbers. -/
theorem insertBy_cNumber {t : Tensor} {cs os : List Tensor} (ht : t.isOperator = false)
    (hcs : ∀ c ∈ cs, c.isOperator = false) (hos : ∀ o ∈ os, o.isOperator = true) :
    insertBy Tensor.placeCmp t (cs ++ os) = insertBy compare t cs ++ os := by
  induction cs with
  | nil =>
      apply insertBy_eq_cons
      intro o ho
      by_contra hle
      exact nomatch (hos o ho).symm.trans (Tensor.isOperator_of_not_isLE hle)
  | cons c cs ih =>
      obtain ⟨hc, hcs⟩ := List.forall_mem_cons.mp hcs
      rw [List.cons_append, insertBy, insertBy, placeCmp_cNumbers ht hc]
      split
      · rfl
      · rw [ih hcs, List.cons_append]

/-- An operator goes behind the c-numbers and in front of the operators. -/
theorem insertBy_operator {t : Tensor} {cs os : List Tensor} (ht : t.isOperator = true)
    (hcs : ∀ c ∈ cs, c.isOperator = false) (hos : ∀ o ∈ os, o.isOperator = true) :
    insertBy Tensor.placeCmp t (cs ++ os) = cs ++ t :: os := by
  induction cs with
  | nil => exact insertBy_eq_cons fun o ho => Tensor.placeCmp_operators ht (hos o ho)
  | cons c cs ih =>
      obtain ⟨hc, hcs⟩ := List.forall_mem_cons.mp hcs
      rw [List.cons_append, insertBy, if_neg (not_isLE_placeCmp ht hc), ih hcs, List.cons_append]

/-- A normal form is the sorted c-numbers followed by the operators. -/
theorem normal_eq (w : Word) : w.normal = sortBy compare w.cNumbers ++ w.operators := by
  rw [normal]
  induction w with
  | nil => rfl
  | cons t w ih =>
      have hcs : ∀ c ∈ sortBy compare (cNumbers w), c.isOperator = false := fun c hc =>
        isOperator_of_mem_cNumbers (mem_sortBy.mp hc)
      have hos : ∀ o ∈ operators w, o.isOperator = true := fun o =>
        isOperator_of_mem_operators
      rw [sortBy, ih, cNumbers_cons, operators_cons]
      cases ht : t.isOperator with
      | false => exact insertBy_cNumber ht hcs hos
      | true => exact insertBy_operator ht hcs hos

/-- Words with the same c-numbers and the same string of operators have the same normal form. -/
theorem normal_congr {u v : Word} (hc : u.cNumbers.Perm v.cNumbers)
    (ho : u.operators = v.operators) : u.normal = v.normal := by
  rw [normal_eq, normal_eq, sortBy_congr hc, ho]

end Word

/-! ## Built words -/

/-- Whether the word is in normal form and its letters have a property. -/
def Word.Built (P : Tensor → Prop) (w : Word) : Prop :=
  w.normal = w ∧ ∀ t ∈ w, P t

/-- Whether the sum is reduced and its words are built of letters with a property. -/
def WordSum.Built (P : Tensor → Prop) (p : WordSum) : Prop :=
  Combination.Reduced Word.cmp p ∧ ∀ t ∈ p, Word.Built P t.2

variable {P : Tensor → Prop}

namespace Word

theorem built_nil : Built P [] :=
  ⟨rfl, List.forall_mem_nil _⟩

theorem built_singleton {t : Tensor} (h : P t) : Built P [t] :=
  ⟨rfl, fun _ hs => List.mem_singleton.mp hs ▸ h⟩

theorem built_normal {w : Word} (h : ∀ t ∈ w, P t) : Built P w.normal :=
  ⟨normal_normal w, fun t ht => h t ((normal_perm w).mem_iff.mp ht)⟩

theorem built_mul {u v : Word} (hu : Built P u) (hv : Built P v) : Built P (u.mul v) := by
  have h : u.mul v = normal (u ++ v) := by rw [normal_append, hv.1]
  rw [h]
  exact built_normal (List.forall_mem_append.mpr ⟨hu.2, hv.2⟩)

end Word

namespace WordSum

theorem built_collect {ts : List (ℚ × Word)} (h : ∀ t ∈ ts, Word.Built P t.2) :
    Built P (Combination.collect Word.cmp ts) :=
  ⟨Combination.reduced_collect ts, Combination.mem_collect h⟩

theorem built_nil : Built P [] :=
  ⟨.nil, List.forall_mem_nil _⟩

theorem built_single {c : ℚ} {w : Word} (hc : c ≠ 0) (hw : Word.Built P w) : Built P [(c, w)] :=
  ⟨Combination.reduced_cons.mpr ⟨⟨hc, .nil⟩, .nil⟩, fun _ h => List.mem_singleton.mp h ▸ hw⟩

theorem built_one : Built P one :=
  built_single one_ne_zero Word.built_nil

theorem built_ofRat (r : ℚ) : Built P (ofRat r) := by
  rw [ofRat, Combination.single]
  split
  · exact built_nil
  · next h => exact built_single h Word.built_nil

theorem built_ofWords {ts : List (ℚ × Word)} (h : ∀ t ∈ ts, ∀ x ∈ t.2, P x) :
    Built P (ofWords ts) := by
  apply built_collect
  intro t ht
  obtain ⟨s, hs, rfl⟩ := List.mem_map.mp ht
  exact Word.built_normal (h s hs)

theorem built_mul {p q : WordSum} (hp : Built P p) (hq : Built P q) : Built P (p.mul q) := by
  apply built_collect
  intro t ht
  obtain ⟨s, hs, ht⟩ := List.mem_flatMap.mp ht
  obtain ⟨r, hr, rfl⟩ := List.mem_map.mp ht
  exact Word.built_mul (hp.2 s hs) (hq.2 r hr)

theorem built_reverse {p : WordSum} (hp : ∀ t ∈ p, ∀ x ∈ t.2, P x) : Built P p.reverse := by
  apply built_ofWords
  intro t ht
  obtain ⟨s, hs, rfl⟩ := List.mem_map.mp ht
  exact fun x hx => hp s hs x (List.mem_reverse.mp hx)

end WordSum

/-! ## Expansions -/

namespace Expr

variable {leaf : Tensor → WordSum}

mutual

/-- Every expansion is built of the letters that the tensors of the tree expand to. -/
theorem built_expand : ∀ e : Expr, (∀ t ∈ e.leaves, ∀ s ∈ leaf t, ∀ x ∈ s.2, P x) →
    WordSum.Built P (e.expand leaf)
  | const r, _ => WordSum.built_ofRat r
  | tensor t, h => WordSum.built_ofWords (h t (List.mem_singleton.mpr rfl))
  | sum ts, h => WordSum.built_collect (built_expandTerms ts h)
  | prod es, h => built_expandFactors es h

theorem built_expandTerms : ∀ ts : List Term,
    (∀ t ∈ termLeaves ts, ∀ s ∈ leaf t, ∀ x ∈ s.2, P x) →
    ∀ s ∈ expandTerms leaf ts, Word.Built P s.2
  | [], _ => List.forall_mem_nil _
  | (c, e) :: ts, h => by
      obtain ⟨he, hts⟩ := List.forall_mem_append.mp h
      refine List.forall_mem_append.mpr ⟨fun s hs => ?_, built_expandTerms ts hts⟩
      obtain ⟨r, hr, rfl⟩ := List.mem_map.mp hs
      exact (built_expand e he).2 r hr

theorem built_expandFactors : ∀ es : List Expr,
    (∀ t ∈ factorLeaves es, ∀ s ∈ leaf t, ∀ x ∈ s.2, P x) →
    WordSum.Built P (expandFactors leaf es)
  | [], _ => WordSum.built_one
  | e :: es, h => by
      obtain ⟨he, hes⟩ := List.forall_mem_append.mp h
      rw [expandFactors_cons]
      exact WordSum.built_mul (built_expand e he) (built_expandFactors es hes)

end

end Expr

/-! ## Canonical words -/

/-- Whether the word is in normal form and its tensors are canonical. -/
abbrev Word.IsCanonical (w : Word) : Prop := w.Built Tensor.IsCanonical

/-- Whether the sum is reduced and its words are canonical. -/
abbrev WordSum.IsCanonical (p : WordSum) : Prop := p.Built Tensor.IsCanonical

theorem Tensor.isCanonical_of_mem_canonicalWords {t : Tensor} {s : ℚ × Word}
    (h : s ∈ t.canonicalWords) : ∀ x ∈ s.2, x.IsCanonical := by
  unfold canonicalWords at h
  split at h
  · cases h
  · next hc =>
      obtain rfl := List.mem_singleton.mp h
      exact fun x hx => List.mem_singleton.mp hx ▸ isCanonical_of_canonical? hc

theorem Tensor.isCanonical_canonicalWords (t : Tensor) : t.canonicalWords.IsCanonical := by
  have h : ∀ s ∈ t.canonicalWords, ∀ x ∈ s.2, x.IsCanonical := fun s hs =>
    isCanonical_of_mem_canonicalWords hs
  unfold canonicalWords at h ⊢
  split
  · exact WordSum.built_nil
  · next s u hc =>
      rw [hc] at h
      refine WordSum.built_single s.toRat_ne_zero (Word.built_singleton ?_)
      exact h _ List.mem_cons_self u List.mem_cons_self

/-- An expansion into canonical tensors is canonical. -/
theorem Expr.isCanonical_expand {leaf : Tensor → WordSum} {e : Expr}
    (h : ∀ t ∈ e.leaves, ∀ s ∈ leaf t, ∀ x ∈ s.2, x.IsCanonical) :
    (e.expand leaf).IsCanonical :=
  built_expand e h

end SecondQuant
