import SecondQuant.Contraction
import SecondQuant.Proofs.CanonicalTree

/-!
# The chain of a word

In a canonical term the operators are the last letters of a word.  Reading them as a chain succeeds
exactly when each is well formed, and every operator of the chain is read off its own source.

* `mapM_eq_ok_iff` — a list of computations succeeds when each of them does.
* `Word.chain`, `Word.WellFormed` — the operators of a word, and whether reading them succeeds.
* `Word.operatorChain_monomial` — reading the chain of a term is reading that of its word.
-/

namespace SecondQuant

/-! ## Computations that may fail -/

theorem bind_eq_ok_iff {ε α β : Type} {x : Except ε α} {f : α → Except ε β} {b : β} :
    x >>= f = .ok b ↔ ∃ a, x = .ok a ∧ f a = .ok b := by
  cases x with
  | error _ => simp [bind, Except.bind]
  | ok a => simp [bind, Except.bind]

/-- A list of computations succeeds when each of them does, with the list of their results. -/
theorem mapM_eq_ok_iff {ε α β : Type} {f : α → Except ε β} {as : List α} {bs : List β} :
    as.mapM f = .ok bs ↔ List.Forall₂ (fun a b => f a = .ok b) as bs := by
  induction as generalizing bs with
  | nil =>
      rw [List.mapM_nil, List.forall₂_nil_left_iff]
      exact ⟨fun h => (Except.ok.inj h).symm, fun h => h ▸ rfl⟩
  | cons a as ih =>
      rw [List.mapM_cons, bind_eq_ok_iff, List.forall₂_cons_left_iff]
      constructor
      · rintro ⟨b, hb, h⟩
        obtain ⟨cs, hcs, h⟩ := bind_eq_ok_iff.mp h
        exact ⟨b, cs, hb, ih.mp hcs, (Except.ok.inj h).symm⟩
      · rintro ⟨b, cs, hb, hcs, rfl⟩
        exact ⟨b, hb, bind_eq_ok_iff.mpr ⟨cs, ih.mpr hcs, rfl⟩⟩

/-- A partial function is defined on a whole list when it keeps every member. -/
theorem forall₂_eq_some_iff {α β : Type} {f : α → Option β} {as : List α} {bs : List β} :
    List.Forall₂ (fun a b => f a = some b) as bs ↔
      (∀ a ∈ as, (f a).isSome) ∧ bs = as.filterMap f := by
  induction as generalizing bs with
  | nil =>
      rw [List.forall₂_nil_left_iff, List.filterMap_nil]
      exact ⟨fun h => ⟨List.forall_mem_nil _, h⟩, fun h => h.2⟩
  | cons a as ih =>
      rw [List.forall₂_cons_left_iff, List.forall_mem_cons]
      constructor
      · rintro ⟨b, cs, hb, hcs, rfl⟩
        obtain ⟨has, rfl⟩ := ih.mp hcs
        rw [List.filterMap_cons, hb]
        exact ⟨⟨rfl, has⟩, rfl⟩
      · rintro ⟨⟨ha, has⟩, rfl⟩
        obtain ⟨b, hb⟩ := Option.isSome_iff_exists.mp ha
        exact ⟨b, as.filterMap f, hb, ih.mpr ⟨has, rfl⟩, by rw [List.filterMap_cons, hb]⟩

/-! ## Reading operators -/

theorem Tensor.elementary?_eq_some {t : Tensor} {x : Ladder × Index}
    (h : t.elementary? = some x) : t.ladder = some x.1 ∧ t.upper = [] ∧ t.lower = [x.2] := by
  unfold elementary? at h
  split at h
  · next hladder hupper hlower =>
      obtain rfl := Option.some.inj h
      exact ⟨hladder, hupper, hlower⟩
  · cases h

/-- The operator that a tensor stands for, if it is well formed. -/
def ChainOperator.read? (t : Tensor) : Option ChainOperator :=
  t.elementary?.map fun x => ⟨t, x.1, x.2⟩

namespace ChainOperator

theorem ofTensor_eq_ok_iff {t : Tensor} {o : ChainOperator} :
    ofTensor t = .ok o ↔ read? t = some o := by
  unfold ofTensor read?
  cases t.elementary? with
  | none => simp
  | some x => simp

theorem source_of_read? {t : Tensor} {o : ChainOperator} (h : read? t = some o) :
    o.source = t := by
  obtain ⟨x, _, rfl⟩ := Option.map_eq_some_iff.mp h
  rfl

theorem ladder_of_read? {t : Tensor} {o : ChainOperator} (h : read? t = some o) :
    t.ladder = some o.ladder := by
  obtain ⟨x, hx, rfl⟩ := Option.map_eq_some_iff.mp h
  exact (Tensor.elementary?_eq_some hx).1

theorem isOperator_of_read? {t : Tensor} {o : ChainOperator} (h : read? t = some o) :
    t.isOperator = true := by
  rw [Tensor.isOperator, ladder_of_read? h]
  rfl

end ChainOperator

namespace Word

/-- The well-formed operators of a word, in order. -/
def chain (w : Word) : List ChainOperator :=
  w.operators.filterMap ChainOperator.read?

/-- Whether every operator of the word is well formed. -/
def WellFormed (w : Word) : Prop :=
  ∀ t ∈ w.operators, (ChainOperator.read? t).isSome

theorem scalars_monomial (w : Word) : w.monomial.scalars = w.cNumbers.map Expr.tensor := by
  rw [Expr.scalars, factors_monomial, List.filter_map, cNumbers]
  rfl

theorem filterMap_operatorTensor? (w : Word) :
    (w.map Expr.tensor).filterMap Expr.operatorTensor? = w.operators := by
  rw [List.filterMap_map, operators, ← List.filterMap_eq_filter]
  rfl

/-- The chain of a term can be read when its operators are well formed. -/
theorem operatorChain_monomial {w : Word} {os : List ChainOperator} :
    w.monomial.operatorChain = .ok os ↔ w.WellFormed ∧ os = w.chain := by
  rw [Expr.operatorChain, factors_monomial, filterMap_operatorTensor?, mapM_eq_ok_iff]
  simp only [ChainOperator.ofTensor_eq_ok_iff]
  exact forall₂_eq_some_iff

/-- Every member of a chain is read off its own source. -/
theorem read?_source {w : Word} {o : ChainOperator} (h : o ∈ w.chain) :
    ChainOperator.read? o.source = some o := by
  obtain ⟨t, _, ht⟩ := List.mem_filterMap.mp h
  rwa [ChainOperator.source_of_read? ht]

end Word

end SecondQuant
