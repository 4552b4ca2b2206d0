import SecondQuant.Rank.Counters
import SecondQuant.Proofs.BuilderIndices
import SecondQuant.Proofs.ScreeningDuality

/-!
# Screening of builders

What a builder yields is a single term, so screening it means following one list of operators:
creations over one space before annihilations over another.  A run of annihilations makes holes and
removes particles, as many together as there are operators, and a run of creations does the
opposite; only what is made may pass the end of a counter.  Which ranks a Hamiltonian or a product
of clusters reaches is then a matter of adding numbers, modulo `2 ^ 32` where quanta are made.

* `Shifts`, `Applies`, `mem_reach32_run` — runs of operators of one kind.
* `Expr.HasOperators`, `Expr.RunsAs` — expressions of a single term, with its operators, and with
  the relation that they follow; products compose the relations.
* `Builder.runsAs_hamiltonian`, `Builder.runsAs_projectedClusters` — what builders follow.
* `Builder.screening_builders` — the ranks of a Hamiltonian, and of clusters from which a
  deexcitation takes electrons back.
-/

namespace SecondQuant

/-! ## Runs of operators of one kind -/

/-- Whether a space has states on which an operator makes or removes quanta of a kind. -/
def Space.Holds (s : Space) : Quantum → Prop
  | .hole => s = .occupied ∨ s = .general
  | .particle => s = .virtual ∨ s = .general
  | .photon => False

instance (s : Space) : (q : Quantum) → Decidable (s.Holds q)
  | .hole => inferInstanceAs (Decidable (s = .occupied ∨ s = .general))
  | .particle => inferInstanceAs (Decidable (s = .virtual ∨ s = .general))
  | .photon => inferInstanceAs (Decidable False)

/-- The kind of quantum that an action on fermions makes. -/
def Action.quantum : Action → Quantum
  | .annihilation => .hole
  | .creation => .particle

/-- The counter that an action on fermions raises, and the one that it lowers. -/
def Action.counters (a : Action) (o : Occupation32) : UInt32 × UInt32 :=
  match a with
  | .annihilation => (o.holes, o.particles)
  | .creation => (o.particles, o.holes)

/-- Whether `n` steps lead from a pair of counters to another: some raise the first counter, which
may pass its end, and the others lower the second one, which stops at zero. -/
def Shifts (raises lowers : Prop) (n : ℕ) (x y : UInt32 × UInt32) : Prop :=
  ∃ i j, i + j = n ∧ (i = 0 ∨ raises) ∧ (j = 0 ∨ lowers) ∧
    y.1.toNat = (x.1.toNat + i) % 2 ^ 32 ∧ x.2.toNat = y.2.toNat + j

/-- Steps may be taken one part after the other. -/
theorem shifts_add {raises lowers : Prop} {m n : ℕ} {x z : UInt32 × UInt32} :
    Shifts raises lowers (m + n) x z ↔
      ∃ y, Shifts raises lowers m x y ∧ Shifts raises lowers n y z := by
  constructor
  · rintro ⟨i, j, hij, hi, hj, hup, hdown⟩
    have hx := x.1.toNat_lt
    have hx' := x.2.toNat_lt
    refine ⟨(.ofNat (x.1.toNat + min i m), .ofNat (x.2.toNat - (m - min i m))), ?_, ?_⟩
    · refine ⟨min i m, m - min i m, by omega, hi.imp_left (by omega), hj.imp_left (by omega),
        UInt32.toNat_ofNat', ?_⟩
      rw [UInt32.toNat_ofNat']
      omega
    · refine ⟨i - min i m, j - (m - min i m), by omega, hi.imp_left (by omega),
        hj.imp_left (by omega), ?_, ?_⟩
      · rw [UInt32.toNat_ofNat']
        omega
      · rw [UInt32.toNat_ofNat']
        omega
  · rintro ⟨y, ⟨i, j, hij, hi, hj, hup, hdown⟩, i', j', hij', hi', hj', hup', hdown'⟩
    refine ⟨i + i', j + j', by omega, ?_, ?_, by omega, by omega⟩
    · rcases hi with rfl | h
      · exact hi'.imp_left (by omega)
      · exact .inr h
    · rcases hj with rfl | h
      · exact hj'.imp_left (by omega)
      · exact .inr h

/-- Whether `n` operators of an action over a space may lead from one occupation to another. -/
def Applies (a : Action) (s : Space) (n : ℕ) (o p : Occupation32) : Prop :=
  Shifts (s.Holds a.quantum) (s.Holds a.adjoint.quantum) n (a.counters o) (a.counters p) ∧
    p.photons = o.photons

theorem applies_zero {a : Action} {s : Space} {o p : Occupation32} :
    Applies a s 0 o p ↔ p = o := by
  constructor
  · rintro ⟨⟨i, j, hij, -, -, hup, hdown⟩, hphotons⟩
    obtain ⟨rfl, rfl⟩ : i = 0 ∧ j = 0 := by omega
    rw [Nat.add_zero, Nat.mod_eq_of_lt (UInt32.toNat_lt _)] at hup
    have hup := UInt32.toNat_inj.mp hup
    have hdown := UInt32.toNat_inj.mp hdown
    cases a <;> cases o <;> cases p <;> simp_all [Action.counters]
  · rintro rfl
    refine ⟨⟨0, 0, rfl, .inl rfl, .inl rfl, ?_, rfl⟩, rfl⟩
    exact (Nat.mod_eq_of_lt (UInt32.toNat_lt _)).symm

/-- Counters may be set as one likes. -/
theorem Action.exists_counters (a : Action) (x : UInt32 × UInt32) (n : UInt32) :
    ∃ o : Occupation32, a.counters o = x ∧ o.photons = n := by
  cases a with
  | annihilation => exact ⟨⟨x.1, x.2, n⟩, rfl, rfl⟩
  | creation => exact ⟨⟨x.2, x.1, n⟩, rfl, rfl⟩

theorem applies_add {a : Action} {s : Space} {m n : ℕ} {o p : Occupation32} :
    Applies a s (m + n) o p ↔ ∃ mid, Applies a s m o mid ∧ Applies a s n mid p := by
  constructor
  · rintro ⟨hshifts, hphotons⟩
    obtain ⟨y, hm, hn⟩ := shifts_add.mp hshifts
    obtain ⟨mid, rfl, hmid⟩ := a.exists_counters y o.photons
    exact ⟨mid, ⟨hm, hmid⟩, hn, hphotons.trans hmid.symm⟩
  · rintro ⟨mid, ⟨hm, hmid⟩, hn, hphotons⟩
    exact ⟨shifts_add.mpr ⟨_, hm, hn⟩, hphotons.trans hmid⟩

theorem shifts_one {raises lowers : Prop} {x y : UInt32 × UInt32} :
    Shifts raises lowers 1 x y ↔ raises ∧ y.1 = x.1 + 1 ∧ y.2 = x.2 ∨
      lowers ∧ y.1 = x.1 ∧ x.2.toNat = y.2.toNat + 1 := by
  simp only [← UInt32.toNat_inj, UInt32.toNat_add, UInt32.toNat_one]
  have hx := x.1.toNat_lt
  constructor
  · rintro ⟨i, j, hij, hi, hj, hup, hdown⟩
    rcases Nat.eq_zero_or_pos i with rfl | hpos
    · exact .inr ⟨hj.resolve_left (by omega), by omega, by omega⟩
    · exact .inl ⟨hi.resolve_left (by omega), by omega, by omega⟩
  · rintro (⟨hraises, hup, hdown⟩ | ⟨hlowers, hup, hdown⟩)
    · exact ⟨1, 0, rfl, .inr hraises, .inl rfl, hup, hdown.symm⟩
    · exact ⟨0, 1, rfl, .inl rfl, .inr hlowers, by omega, hdown⟩

/-- Making a quantum raises one counter. -/
theorem stored_act_quantum_iff {a : Action} {o p : Occupation32} :
    stored (act a a.quantum) o = some p ↔ (a.counters p).1 = (a.counters o).1 + 1 ∧
      (a.counters p).2 = (a.counters o).2 ∧ p.photons = o.photons := by
  cases a <;> cases o <;> cases p <;>
    simp [stored, act, Action.quantum, Action.counters, actOccupied, actVirtual, Occupation.narrow,
      Occupation32.widen, UInt32.ofNat_add] <;> grind

/-- Removing one lowers the other counter, which must not be at zero. -/
theorem stored_act_adjoint_quantum_iff {a : Action} {o p : Occupation32} :
    stored (act a a.adjoint.quantum) o = some p ↔ (a.counters p).1 = (a.counters o).1 ∧
      (a.counters o).2.toNat = (a.counters p).2.toNat + 1 ∧ p.photons = o.photons := by
  have hpred {x y : UInt32} : (∃ n, x.toNat = n + 1 ∧ UInt32.ofNat n = y) ↔
      x.toNat = y.toNat + 1 := by
    constructor
    · rintro ⟨n, hn, rfl⟩
      have hx := x.toNat_lt
      rw [UInt32.toNat_ofNat', hn, Nat.mod_eq_of_lt (by omega)]
    · exact fun h => ⟨y.toNat, h, UInt32.ofNat_toNat⟩
  cases a <;> cases o <;> cases p <;>
    simp [stored, act, Action.quantum, Action.adjoint, Action.counters, actOccupied, actVirtual,
      Occupation.narrow, Occupation32.widen, pred?_eq_some, ← hpred] <;> grind

/-- One operator makes a quantum or removes one. -/
theorem exists_stored_iff {a : Action} {i : Index} {o p : Occupation32} :
    (∃ f ∈ readings (.elementary ⟨.fermion, a⟩ i), stored f o = some p) ↔
      Applies a i.space 1 o p := by
  have hreadings : readings (.elementary ⟨.fermion, a⟩ i) = ladderReadings ⟨.fermion, a⟩ i.space :=
    rfl
  have hoccupied : actOccupied a = act a .hole := rfl
  have hvirtual : actVirtual a = act a .particle := rfl
  simp only [Applies, shifts_one, or_and_right, and_assoc]
  rw [← stored_act_quantum_iff, ← stored_act_adjoint_quantum_iff, hreadings]
  cases a <;> cases i.space <;>
    simp [ladderReadings, Space.Holds, Action.quantum, Action.adjoint, hoccupied, hvirtual, or_comm]

/-- A run of operators of one action over one space. -/
theorem mem_reach32_run {a : Action} {s : Space} {is : List Index} (h : ∀ i ∈ is, i.space = s)
    {start final : Occupation32} :
    final ∈ reach32 (is.map (.elementary ⟨.fermion, a⟩)) start ↔
      Applies a s is.length start final := by
  induction is generalizing final with
  | nil => exact List.mem_singleton.trans applies_zero.symm
  | cons i is ih =>
      obtain ⟨hi, his⟩ := List.forall_mem_cons.mp h
      rw [List.map_cons, mem_reach32_cons, List.length_cons, applies_add]
      simp only [exists_stored_iff, ih his, hi]

/-- Over states of the kind that it makes, an action raises one counter. -/
theorem applies_raising_iff {a : Action} {s : Space} {n : ℕ} {o p : Occupation32}
    (hraises : s.Holds a.quantum) (hlowers : ¬s.Holds a.adjoint.quantum) :
    Applies a s n o p ↔ (a.counters p).1.toNat = ((a.counters o).1.toNat + n) % 2 ^ 32 ∧
      (a.counters p).2 = (a.counters o).2 ∧ p.photons = o.photons := by
  constructor
  · rintro ⟨⟨i, j, hij, -, hj, hup, hdown⟩, hphotons⟩
    obtain rfl : j = 0 := hj.resolve_right hlowers
    obtain rfl : i = n := hij
    exact ⟨hup, (UInt32.toNat_inj.mp hdown).symm, hphotons⟩
  · rintro ⟨hup, hdown, hphotons⟩
    exact ⟨⟨n, 0, rfl, .inr hraises, .inl rfl, hup, congrArg _ hdown.symm⟩, hphotons⟩

/-- Over states of the other kind it lowers the other counter, which has to be high enough. -/
theorem applies_lowering_iff {a : Action} {s : Space} {n : ℕ} {o p : Occupation32}
    (hraises : ¬s.Holds a.quantum) (hlowers : s.Holds a.adjoint.quantum) :
    Applies a s n o p ↔ (a.counters p).1 = (a.counters o).1 ∧
      (a.counters o).2.toNat = (a.counters p).2.toNat + n ∧ p.photons = o.photons := by
  have hrange := (a.counters o).1.toNat_lt
  constructor
  · rintro ⟨⟨i, j, hij, hi, -, hup, hdown⟩, hphotons⟩
    obtain rfl : i = 0 := hi.resolve_right hraises
    obtain rfl : j = n := by omega
    rw [Nat.add_zero, Nat.mod_eq_of_lt hrange] at hup
    exact ⟨UInt32.toNat_inj.mp hup, hdown, hphotons⟩
  · rintro ⟨hup, hdown, hphotons⟩
    have hup : (a.counters p).1.toNat = ((a.counters o).1.toNat + 0) % 2 ^ 32 := by
      rw [hup, Nat.add_zero, Nat.mod_eq_of_lt hrange]
    exact ⟨⟨0, n, Nat.zero_add n, .inl rfl, .inr hlowers, hup, hdown⟩, hphotons⟩

/-- Creations over one space before annihilations over another one. -/
theorem mem_reach32_ladders {s t : Space} {cre ann : List Index} (hcre : ∀ i ∈ cre, i.space = s)
    (hann : ∀ i ∈ ann, i.space = t) {start final : Occupation32} :
    final ∈ reach32 (Builder.ladders .fermion cre ann) start ↔
      ∃ mid, Applies .annihilation t ann.length start mid ∧
        Applies .creation s cre.length mid final := by
  have hann : ∀ i ∈ ann.reverse, i.space = t := fun i hi => hann i (List.mem_reverse.mp hi)
  simp only [Builder.ladders, mem_reach32_append, mem_reach32_run hann, mem_reach32_run hcre,
    List.length_reverse]

/-- The occupation with `n` electrons excited. -/
def Occupation.excited (o : Occupation) (n : ℕ) : Occupation :=
  ⟨o.holes + n, o.particles + n, o.photons⟩

theorem Occupation32.narrow_excited_zero (o : Occupation32) : (o.widen.excited 0).narrow = o :=
  o.narrow_widen

theorem Occupation.excited_excited (o : Occupation) (m n : ℕ) :
    (o.excited m).excited n = o.excited (m + n) := by
  simp only [excited, Nat.add_assoc]

theorem Occupation.excited_determinant (k n : ℕ) :
    (determinant k).excited n = determinant (k + n) := rfl

theorem Occupation.determinant_inj {k l : ℕ} : determinant k = determinant l ↔ k = l :=
  ⟨congrArg holes, congrArg determinant⟩

/-- The counters keep the rank of a determinant modulo `2 ^ 32`. -/
theorem Occupation.widen_narrow_determinant (k : ℕ) :
    (determinant k).narrow.widen = determinant (k % 2 ^ 32) := by
  have hrank : (UInt32.ofNat k).toNat = k % 2 ^ 32 := UInt32.toNat_ofNat'
  rw [← hrank]
  rfl

/-- Excitations may be stored on the way. -/
theorem Occupation.narrow_excited_narrow (o : Occupation) (n : ℕ) :
    (o.narrow.widen.excited n).narrow = (o.excited n).narrow := by
  ext1 <;> simp [excited, Occupation32.widen, narrow, ← UInt32.toNat_inj]

/-- Particles and holes are made in equal numbers. -/
theorem mem_reach32_exciting {cre ann : List Index} (hcre : ∀ i ∈ cre, i.space = .virtual)
    (hann : ∀ i ∈ ann, i.space = .occupied) {n : ℕ} (hm : cre.length = n) (hn : ann.length = n)
    {start final : Occupation32} :
    final ∈ reach32 (Builder.ladders .fermion cre ann) start ↔
      final = (start.widen.excited n).narrow := by
  rw [mem_reach32_ladders hcre hann, hm, hn]
  simp only [applies_raising_iff (a := .annihilation) (s := .occupied) (.inl rfl) (by decide),
    applies_raising_iff (a := .creation) (s := .virtual) (.inl rfl) (by decide), Action.counters]
  constructor
  · rintro ⟨mid, ⟨hholes, hparticles, hphotons⟩, hparticles', hholes', hphotons'⟩
    rw [hparticles] at hparticles'
    ext1
    · exact hholes'.trans (UInt32.toNat_inj.mp (hholes.trans UInt32.toNat_ofNat'.symm))
    · exact UInt32.toNat_inj.mp (hparticles'.trans UInt32.toNat_ofNat'.symm)
    · exact (hphotons'.trans hphotons).trans UInt32.ofNat_toNat.symm
  · rintro rfl
    refine ⟨⟨.ofNat (start.holes.toNat + n), start.particles, start.photons⟩, ?_, ?_⟩
    · exact ⟨UInt32.toNat_ofNat', rfl, rfl⟩
    · exact ⟨UInt32.toNat_ofNat', rfl, UInt32.ofNat_toNat⟩

/-- They are taken back in equal numbers. -/
theorem mem_reach32_deexciting {cre ann : List Index} (hcre : ∀ i ∈ cre, i.space = .occupied)
    (hann : ∀ i ∈ ann, i.space = .virtual) {n : ℕ} (hm : cre.length = n) (hn : ann.length = n)
    {start final : Occupation32} :
    final ∈ reach32 (Builder.ladders .fermion cre ann) start ↔
      start.widen = final.widen.excited n := by
  rw [mem_reach32_ladders hcre hann, hm, hn]
  simp only [applies_lowering_iff (a := .annihilation) (s := .virtual) (by decide) (.inl rfl),
    applies_lowering_iff (a := .creation) (s := .occupied) (by decide) (.inl rfl), Action.counters,
    Occupation.excited, Occupation32.widen, Occupation.mk.injEq]
  constructor
  · rintro ⟨mid, ⟨hholes, hparticles, hphotons⟩, hparticles', hholes', hphotons'⟩
    rw [← hholes, hparticles, hparticles', hphotons', hphotons]
    exact ⟨hholes', rfl, rfl⟩
  · rintro ⟨hholes, hparticles, hphotons⟩
    have hphotons := UInt32.toNat_inj.mp hphotons
    exact ⟨⟨start.holes, final.particles, start.photons⟩, ⟨rfl, hparticles, rfl⟩, rfl, hholes,
      hphotons.symm⟩

/-! ## Expressions of a single term -/

namespace Expr

open OperatorAlgebra (gen)

variable {R S : Occupation32 → Occupation32 → Prop} {e : Expr} {ts : List Tensor}

/-- Whether an expression has a single term, with these operators. -/
def HasOperators (e : Expr) (ts : List Tensor) : Prop :=
  ∃ k w, e.words = [(k, w)] ∧ w.operators = ts

namespace HasOperators

/-- Screening such an expression asks for its operators. -/
theorem any_terms_eq (h : e.HasOperators ts) (he : e.IsCanonical) (p : List Tensor → Bool) :
    (e.terms.any fun t => p t.2.operators) = p ts := by
  obtain ⟨k, w, hwords, rfl⟩ := h
  rw [any_terms he p, hwords, List.any_cons, List.any_nil, Bool.or_false]

theorem one : HasOperators Expr.one [] :=
  ⟨1, [], rfl, rfl⟩

/-- The adjoint has the conjugate operators in reverse order. -/
theorem adjoint (h : e.HasOperators ts) :
    e.adjoint.HasOperators (ts.map Tensor.adjoint).reverse := by
  obtain ⟨k, w, hwords, rfl⟩ := h
  have hperm := e.words_adjoint_perm
  rw [hwords] at hperm
  exact ⟨k, w.adjoint, List.perm_singleton.mp hperm, Word.operators_adjoint w⟩

/-- A product has the operators of its factors. -/
theorem product_cons {es : List Expr} {us : List Tensor} (h : e.HasOperators ts)
    (hes : (product es).HasOperators us) : (product (e :: es)).HasOperators (ts ++ us) := by
  obtain ⟨k, w, hw, rfl⟩ := h
  obtain ⟨l, v, hv, rfl⟩ := hes
  obtain ⟨hk, hwcan, hwdenote⟩ := of_words_eq_singleton hw
  obtain ⟨hl, hvcan, hvdenote⟩ := of_words_eq_singleton hv
  have hdenote : (product (e :: es)).denote = (k * l) • Word.eval gen (w ++ v) := by
    rw [denote_product] at hvdenote ⊢
    rw [List.map_cons, List.prod_cons, hwdenote, hvdenote, Word.eval_append, smul_mul_smul_comm]
  refine ⟨k * l, Word.normal (w ++ v), ?_, ?_⟩
  · exact words_eq_singleton (mul_ne_zero hk hl)
      (List.forall_mem_append.mpr ⟨hwcan.2, hvcan.2⟩) hdenote
  · rw [Word.operators_normal]
    exact List.filter_append ..

end HasOperators

/-- A c-number before operators has just these. -/
theorem hasOperators_of_denote {k : ℚ} {t : Tensor} {os : Word} (hk : k ≠ 0)
    (he : e.denote = k • Word.eval gen (t :: os)) (ht : t.isOperator = false)
    (hos : ∀ o ∈ os, o.isOperator = true ∧ o.IsCanonical) (hnodup : t.indices.Nodup) :
    e.HasOperators os := by
  obtain ⟨s, u, hu⟩ := Tensor.exists_canonical?_of_nodup hnodup
  have hcNumber : ∀ x ∈ [u], x.isOperator = false :=
    List.forall_mem_singleton.mpr ((Tensor.isOperator_of_canonical? hu).trans ht)
  refine ⟨_, _, words_eq_of_denote hk he (fun o ho => (hos o ho).2) hu, ?_⟩
  rw [Word.operators_normal]
  exact Word.operators_append hcNumber fun o ho => (hos o ho).1

/-- Whether an expression has a single term, whose operators lead from one occupation to another
exactly when a relation holds between the two. -/
def RunsAs (R : Occupation32 → Occupation32 → Prop) (e : Expr) : Prop :=
  ∃ ts, e.HasOperators ts ∧ ∀ start final, final ∈ reach32 ts start ↔ R start final

namespace RunsAs

theorem congr (h : e.RunsAs R) (hRS : ∀ o p, R o p ↔ S o p) : e.RunsAs S := by
  obtain ⟨ts, hts, hreach⟩ := h
  exact ⟨ts, hts, fun o p => (hreach o p).trans (hRS o p)⟩

theorem raisesTo32_iff (h : e.RunsAs R) (he : e.IsCanonical) {k : UInt32} :
    e.raisesTo32 k = true ↔ R .reference (.determinant k) := by
  obtain ⟨ts, hts, hreach⟩ := h
  rw [raisesTo32, hts.any_terms_eq he fun ts => connects32 ts .reference (.determinant k),
    connects32_iff, hreach]

theorem lowersFrom32_iff (h : e.RunsAs R) (he : e.IsCanonical) {k : UInt32} :
    e.lowersFrom32 k = true ↔ R (.determinant k) .reference := by
  obtain ⟨ts, hts, hreach⟩ := h
  rw [lowersFrom32, hts.any_terms_eq he fun ts => connects32 ts (.determinant k) .reference,
    connects32_iff, hreach]

/-- The unit leaves every occupation alone. -/
theorem one : RunsAs (fun o p => p = o) Expr.one :=
  ⟨[], .one, fun _ _ => List.mem_singleton⟩

/-- The other factors of a product act before the first one. -/
theorem product_cons {es : List Expr} (h : e.RunsAs R) (hes : (product es).RunsAs S) :
    (product (e :: es)).RunsAs fun o p => ∃ mid, S o mid ∧ R mid p := by
  obtain ⟨ts, hts, hR⟩ := h
  obtain ⟨us, hus, hS⟩ := hes
  refine ⟨ts ++ us, hts.product_cons hus, fun start final => ?_⟩
  simp only [mem_reach32_append, hS, hR]

end RunsAs

end Expr

/-! ## Builders -/

namespace Builder

open Drawing

/-- The indices drawn for a list of spaces lie in them. -/
theorem map_space_drawEach (ss : List Space) (c : IndexContext) :
    ((drawEach ss).run c).1.map Index.space = ss := by
  induction ss generalizing c with
  | nil => rfl
  | cons s ss ih => exact congrArg (s :: ·) (ih (c.record s))

theorem space_of_mem_drawEach {s : Space} {n : ℕ} {c : IndexContext} :
    ∀ i ∈ ((drawEach (List.replicate n s)).run c).1, i.space = s := by
  intro i hi
  have hmem : i.space ∈ ((drawEach (List.replicate n s)).run c).1.map Index.space :=
    List.mem_map_of_mem hi
  rw [map_space_drawEach] at hmem
  exact List.eq_of_mem_replicate hmem

theorem adjoint_ladders (s : Statistics) (cre ann : List Index) :
    ((ladders s cre ann).map Tensor.adjoint).reverse = ladders s ann cre := by
  have hflip (a : Action) :
      Tensor.adjoint ∘ Tensor.elementary ⟨s, a⟩ = Tensor.elementary ⟨s, a.adjoint⟩ := rfl
  simp only [ladders, List.map_append, List.reverse_append, List.map_map, hflip,
    ← List.map_reverse, List.reverse_reverse, Action.adjoint]

/-- A normal-ordered operator creates over one space and annihilates over another. -/
theorem exists_hasOperators_normalOrdered (name : String) (s t : Space) (m n : ℕ)
    (c : IndexContext) :
    ∃ cre ann, (cre.length = m ∧ ∀ i ∈ cre, i.space = s) ∧
      (ann.length = n ∧ ∀ i ∈ ann, i.space = t) ∧
      ((normalOrdered name .fermion (List.replicate m s) (List.replicate n t)).run
        c).1.HasOperators (ladders .fermion cre ann) := by
  let cre := ((drawEach (List.replicate m s)).run c).1
  let c' := ((drawEach (List.replicate m s)).run c).2
  let ann := ((drawEach (List.replicate n t)).run c').1
  have hcre : cre.length = m := (length_drawEach _ c).trans List.length_replicate
  have hann : ann.length = n := (length_drawEach _ c').trans List.length_replicate
  have hdrawn : (cre ++ ann).Nodup :=
    ((handedOut_drawEach _ c).append (handedOut_drawEach _ c')).nodup
  refine ⟨cre, ann, ⟨hcre, space_of_mem_drawEach⟩, ⟨hann, space_of_mem_drawEach⟩, ?_⟩
  have hladders : ∀ o ∈ ladders .fermion cre ann, o.isOperator = true ∧ o.IsCanonical := fun o ho =>
    ⟨isOperator_of_mem_ladders _ cre ann o ho, isCanonical_of_mem_ladders _ cre ann o ho⟩
  exact Expr.hasOperators_of_denote (weight_ne_zero _ _)
    (denote_normalProduct name .fermion cre ann) rfl hladders hdrawn

/-- Particles and holes are made in equal numbers. -/
theorem runsAs_particleHole (name : String) (n : ℕ) (c : IndexContext) :
    ((particleHole name n).run c).1.RunsAs fun o p => p = (o.widen.excited n).narrow := by
  by_cases hn : n = 0
  · subst hn
    exact Expr.RunsAs.one.congr fun o p => by rw [o.narrow_excited_zero]
  · rw [particleHole_run hn]
    obtain ⟨cre, ann, ⟨hm, hcre⟩, ⟨hn, hann⟩, hop⟩ :=
      exists_hasOperators_normalOrdered name .virtual .occupied n n c
    exact ⟨_, hop, fun o p => mem_reach32_exciting hcre hann hm hn⟩

/-- A negative rank takes them back. -/
theorem runsAs_particleHole_neg (name : String) (n : ℕ) (c : IndexContext) :
    ((particleHole name (-n)).run c).1.RunsAs fun o p => o.widen = p.widen.excited n := by
  by_cases hn : n = 0
  · subst hn
    exact Expr.RunsAs.one.congr fun o p =>
      ⟨fun h => h ▸ rfl, fun h => Occupation32.widen_injective h.symm⟩
  · rw [particleHole_neg_run hn, particleHole_run hn]
    obtain ⟨cre, ann, ⟨hm, hcre⟩, ⟨hn, hann⟩, hop⟩ :=
      exists_hasOperators_normalOrdered name .virtual .occupied n n c
    have hadjoint := hop.adjoint
    rw [adjoint_ladders] at hadjoint
    exact ⟨_, hadjoint, fun o p => mem_reach32_deexciting hann hcre hn hm⟩

/-- An excitation of rank `-m` and the cluster operators of some ranks, built one after the other
and multiplied in this order. -/
def projectedClusters (m : ℕ) (ns : List ℕ) : Drawing Expr := do
  let bra ← excitation (-m)
  let kets ← ns.mapM fun n : ℕ => cluster n
  return Expr.product (bra :: kets)

/-- A product of clusters excites as many electrons as its ranks add up to. -/
theorem runsAs_clusters (ns : List ℕ) (c : IndexContext) :
    (Expr.product ((ns.mapM fun n : ℕ => cluster n).run c).1).RunsAs
      fun o p => p = (o.widen.excited ns.sum).narrow := by
  induction ns generalizing c with
  | nil =>
      exact Expr.RunsAs.one.congr fun o p => by rw [List.sum_nil, o.narrow_excited_zero]
  | cons n ns ih =>
      rw [List.mapM_cons]
      refine (Expr.RunsAs.product_cons (runsAs_particleHole "t" n c) (ih _)).congr fun o p => ?_
      rw [exists_eq_left, Occupation.narrow_excited_narrow, Occupation.excited_excited,
        List.sum_cons, Nat.add_comm]

theorem runsAs_projectedClusters (m : ℕ) (ns : List ℕ) (c : IndexContext) :
    ((projectedClusters m ns).run c).1.RunsAs
      fun o p => (o.widen.excited ns.sum).narrow.widen = p.widen.excited m := by
  refine (Expr.RunsAs.product_cons (runsAs_particleHole_neg "A" m c) (runsAs_clusters ns _)).congr
    fun o p => ?_
  rw [exists_eq_left]

theorem isCanonical_projectedClusters (m : ℕ) (ns : List ℕ) (c : IndexContext) :
    ((projectedClusters m ns).run c).1.IsCanonical := by
  have hbuilt := Expr.yieldedByBuilders_isCanonical
  refine Expr.isCanonical_product (List.forall_mem_cons.mpr ⟨hbuilt.excitation _ c, ?_⟩)
  exact yields_mapM (f := fun n : ℕ => cluster n) (fun n _ => hbuilt.cluster n) _

/-- A Hamiltonian over general states. -/
theorem runsAs_hamiltonian {n : ℕ} (hn : 1 ≤ n) (c : IndexContext) :
    ((hamiltonian n).run c).1.RunsAs fun o p =>
      ∃ mid, Applies .annihilation .general n o mid ∧ Applies .creation .general n mid p := by
  obtain ⟨n, rfl⟩ := Nat.exists_eq_succ_of_ne_zero (by omega : n ≠ 0)
  obtain ⟨cre, ann, ⟨hm, hcre⟩, ⟨hn, hann⟩, hop⟩ :=
    exists_hasOperators_normalOrdered _ .general .general (n + 1) (n + 1) c
  exact ⟨_, hop, fun o p => by rw [mem_reach32_ladders hcre hann, hm, hn]⟩

/-! ## Ranks -/

/-- Out of the reference a Hamiltonian scatters at most as many electrons as it has bodies: its
annihilations all make holes, and its creations fill some of them. -/
theorem exists_applies_from_reference {n : ℕ} {k : UInt32} :
    (∃ mid, Applies .annihilation .general n .reference mid ∧
      Applies .creation .general n mid (.determinant k)) ↔ k.toNat ≤ n % 2 ^ 32 := by
  simp only [Applies, Shifts, Action.counters, Occupation32.reference, Occupation32.determinant,
    UInt32.toNat_zero]
  constructor
  · rintro ⟨mid, ⟨⟨i, j, hij, -, -, hup, hdown⟩, -⟩, ⟨i', j', hij', -, -, hup', hdown'⟩, -⟩
    omega
  · intro hk
    refine ⟨⟨.ofNat n, 0, 0⟩, ⟨⟨n, 0, Nat.add_zero n, .inr (.inr rfl), .inl rfl, ?_, rfl⟩, rfl⟩, ?_⟩
    · rw [UInt32.toNat_ofNat', Nat.zero_add]
    · refine ⟨⟨n - (n % 2 ^ 32 - k.toNat), n % 2 ^ 32 - k.toNat, by omega, .inr (.inr rfl),
        .inr (.inr rfl), ?_, ?_⟩, rfl⟩
      · rw [UInt32.toNat_zero]
        omega
      · rw [UInt32.toNat_ofNat', Nat.add_sub_of_le hk]

/-- Back to the reference it takes the ranks up to the number of its bodies, and those that as many
annihilations drive past the end of the counter. -/
theorem exists_applies_to_reference {n : ℕ} {k : UInt32} :
    (∃ mid, Applies .annihilation .general n (.determinant k) mid ∧
      Applies .creation .general n mid .reference) ↔
      k.toNat ≤ n ∨ 2 ^ 32 ≤ k.toNat + n := by
  simp only [Applies, Shifts, Action.counters, Occupation32.reference, Occupation32.determinant,
    UInt32.toNat_zero, Nat.zero_add]
  have hrange := k.toNat_lt
  constructor
  · rintro ⟨mid, ⟨⟨i, j, hij, -, -, hup, hdown⟩, -⟩, ⟨i', j', hij', -, -, hup', hdown'⟩, -⟩
    omega
  · intro hk
    by_cases hsmall : k.toNat ≤ n
    · -- All particles are removed, and the other annihilations make holes.
      refine ⟨⟨.ofNat n, 0, 0⟩, ⟨⟨n - k.toNat, k.toNat, by omega, .inr (.inr rfl),
        .inr (.inr rfl), ?_, (Nat.zero_add _).symm⟩, rfl⟩, ?_⟩
      · rw [UInt32.toNat_ofNat', Nat.add_sub_of_le hsmall]
      · refine ⟨⟨n - n % 2 ^ 32, n % 2 ^ 32, by omega, .inr (.inr rfl), .inr (.inr rfl), ?_,
          UInt32.toNat_ofNat'⟩, rfl⟩
        rw [UInt32.toNat_zero]
        omega
    · -- All annihilations make holes, past the end of the counter.
      refine ⟨⟨.ofNat (k.toNat + n), k, 0⟩, ⟨⟨n, 0, rfl, .inr (.inr rfl), .inl rfl,
        UInt32.toNat_ofNat', rfl⟩, rfl⟩, ?_⟩
      refine ⟨⟨2 ^ 32 - k.toNat, k.toNat + n - 2 ^ 32, by omega, .inr (.inr rfl), .inr (.inr rfl),
        ?_, ?_⟩, rfl⟩
      · rw [Nat.add_sub_of_le hrange.le, Nat.mod_self]
      · rw [UInt32.toNat_ofNat']
        omega

/-- A context on which some dummies have been drawn. -/
def usedContext : IndexContext := ⟨3, 1, 4, 0⟩

end Builder

end SecondQuant
