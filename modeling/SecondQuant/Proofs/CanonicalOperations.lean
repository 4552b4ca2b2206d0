import SecondQuant.Builder
import SecondQuant.Proofs.WordContraction

/-!
# The invariant of canonical trees

Every tree that the library hands out is canonical: canonical forms are, every operation keeps the
property, contractions and builders produce it.  With the uniqueness of canonical trees this is why
equality of trees may be read as equality of meaning.

* `Expr.isCanonical_finish`, `isCanonical_of_contract` — contractions.
* `Drawing.Yields` — what a computation returns on every context; the builders yield canonical
  trees.
* `Expr.ClosedUnderOperations`, `Expr.YieldedByBuilders` — a property that the operations keep, and
  that the builders establish.
-/

namespace SecondQuant

/-! ## Contractions -/

theorem Expr.isCanonical_finish {o : Options} {e : Expr} (h : e.IsCanonical) :
    (finish o e).IsCanonical := by
  unfold finish
  split
  · exact isCanonical_renumberDummies _
  · exact h

/-- The result of a contraction is canonical. -/
theorem isCanonical_of_contract {o : Options} {M : Pattern} {e : Expr} {x : Evaluation}
    (h : contract o M e = .ok x) : x.result.IsCanonical := by
  obtain ⟨_, rfl⟩ := contract_eq_ok_iff.mp h
  exact Expr.isCanonical_finish <| Expr.isCanonical_toExpr <|
    WordSum.isCanonical_contract e.isCanonical_canonicalWords_expand

theorem isCanonical_of_vacuumMean {ps : List Pair} {e x : Expr} (h : vacuumMean ps e = .ok x) :
    x.IsCanonical := by
  obtain ⟨M, _, h⟩ := bind_eq_ok_iff.mp h
  obtain ⟨y, hy, h⟩ := bind_eq_ok_iff.mp h
  obtain rfl := Except.ok.inj h
  exact isCanonical_of_contract hy

/-! ## Computations that draw indices -/

namespace Drawing

variable {α β : Type}

/-- Whether a computation returns a value with a property on every context. -/
def Yields (P : α → Prop) (d : Drawing α) : Prop :=
  ∀ c : IndexContext, P (d.run c).1

theorem yields_pure {P : α → Prop} {a : α} (h : P a) : Yields P (pure a) :=
  fun _ => h

theorem yields_bind {P : α → Prop} {Q : β → Prop} {d : Drawing α} {f : α → Drawing β}
    (hd : Yields P d) (hf : ∀ a, P a → Yields Q (f a)) : Yields Q (d >>= f) :=
  fun c => hf _ (hd c) _

/-- Nothing is asked of what comes before, such as the indices that are drawn. -/
theorem yields_after {Q : β → Prop} {d : Drawing α} {f : α → Drawing β}
    (hf : ∀ a, Yields Q (f a)) : Yields Q (d >>= f) :=
  yields_bind (P := fun _ => True) (fun _ => trivial) fun a _ => hf a

theorem yields_mapM {P : β → Prop} {f : α → Drawing β} {l : List α}
    (h : ∀ a ∈ l, Yields P (f a)) : Yields (fun bs => ∀ b ∈ bs, P b) (l.mapM f) := by
  induction l with
  | nil => exact yields_pure (List.forall_mem_nil _)
  | cons a l ih =>
      obtain ⟨ha, hl⟩ := List.forall_mem_cons.mp h
      rw [List.mapM_cons]
      refine yields_bind ha fun b hb => yields_bind (ih hl) ?_
      intro bs hbs
      exact yields_pure (List.forall_mem_cons.mpr ⟨hb, hbs⟩)

end Drawing

/-! ## Builders -/

namespace Builder

open Drawing

theorem isCanonical_normalProduct (name : String) (s : Statistics) (cre ann : List Index) :
    (normalProduct name s cre ann).IsCanonical := by
  refine Expr.isCanonical_product <| List.forall_mem_append.mpr
    ⟨List.forall_mem_append.mpr ⟨?_, ?_⟩, ?_⟩
  · refine List.forall_mem_cons.mpr ⟨.const _, List.forall_mem_singleton.mpr ?_⟩
    exact Expr.isCanonical_ofTensor _
  · exact List.forall_mem_map.mpr fun i _ => Expr.isCanonical_creation s i
  · exact List.forall_mem_map.mpr fun i _ => Expr.isCanonical_annihilation s i

theorem yields_normalOrdered (name : String) (s : Statistics) (cre ann : List Space) :
    Yields Expr.IsCanonical (normalOrdered name s cre ann) :=
  yields_after fun is => yields_after fun js =>
    yields_pure (isCanonical_normalProduct name s is js)

theorem yields_upTo {build : Nat → Drawing Expr} (h : ∀ k, Yields Expr.IsCanonical (build k))
    (n : Nat) : Yields Expr.IsCanonical (upTo build n) :=
  yields_bind (yields_mapM fun k _ => h (k + 1)) fun _ hes =>
    yields_pure (Expr.isCanonical_total hes)

theorem yields_particleHole (name : String) (n : Int) :
    Yields Expr.IsCanonical (particleHole name n) := by
  unfold particleHole
  split
  · exact yields_pure (.const 1)
  · refine yields_bind (yields_normalOrdered _ _ _ _) fun e he => yields_pure ?_
    split
    · exact he
    · exact Expr.isCanonical_adjoint e

theorem yields_clusterAdjoint (n : Int) : Yields Expr.IsCanonical (clusterAdjoint n) :=
  fun _ => Expr.isCanonical_adjoint _

theorem yields_hamiltonian (n : Nat) : Yields Expr.IsCanonical (hamiltonian n) := by
  cases n with
  | zero => exact yields_pure (.const 0)
  | succ n => exact yields_normalOrdered _ _ _ _

theorem yields_photonHamiltonian (n : Nat) : Yields Expr.IsCanonical (photonHamiltonian n) := by
  cases n with
  | zero => exact yields_pure (.const 0)
  | succ n => exact yields_normalOrdered _ _ _ _

theorem isCanonical_emission (p q x : Index) : (emission p q x).IsCanonical := by
  refine Expr.isCanonical_product (List.forall_mem_cons.mpr ⟨Expr.isCanonical_ofTensor _, ?_⟩)
  refine List.forall_mem_cons.mpr ⟨Expr.isCanonical_creation _ _, ?_⟩
  refine List.forall_mem_cons.mpr ⟨Expr.isCanonical_annihilation _ _, ?_⟩
  exact List.forall_mem_singleton.mpr (Expr.isCanonical_creation _ _)

theorem isCanonical_absorption (p q x : Index) : (absorption p q x).IsCanonical := by
  refine Expr.isCanonical_product (List.forall_mem_cons.mpr ⟨Expr.isCanonical_ofTensor _, ?_⟩)
  refine List.forall_mem_cons.mpr ⟨Expr.isCanonical_creation _ _, ?_⟩
  refine List.forall_mem_cons.mpr ⟨Expr.isCanonical_annihilation _ _, ?_⟩
  exact List.forall_mem_singleton.mpr (Expr.isCanonical_annihilation _ _)

theorem yields_electronPhotonCoupling : Yields Expr.IsCanonical electronPhotonCoupling := fun _ =>
  Expr.isCanonical_add (isCanonical_emission _ _ _) (isCanonical_absorption _ _ _)

theorem yields_coupledHamiltonian : Yields Expr.IsCanonical coupledHamiltonian := by
  refine yields_bind (yields_upTo yields_hamiltonian 2) ?_
  intro electrons he
  refine yields_bind (yields_photonHamiltonian 1) ?_
  intro photons hp
  refine yields_bind yields_electronPhotonCoupling fun coupling hc => yields_pure ?_
  refine Expr.isCanonical_total (List.forall_mem_cons.mpr ⟨he, ?_⟩)
  exact List.forall_mem_cons.mpr ⟨hp, List.forall_mem_singleton.mpr hc⟩

end Builder

/-! ## The invariant -/

namespace Expr

/-- Whether every operation that builds an expression leads from trees with a property to trees with
it; operations that may fail do so when they succeed. -/
structure ClosedUnderOperations (P : Expr → Prop) : Prop where
  const : ∀ r : ℚ, P (const r)
  cNumber : ∀ name upper lower symmetry, P (cNumber name upper lower symmetry)
  ofTensor : ∀ t, P (ofTensor t)
  creation : ∀ s i, P (creation s i)
  annihilation : ∀ s i, P (annihilation s i)
  total : ∀ es : List Expr, (∀ e ∈ es, P e) → P (total es)
  weightedSum : ∀ ts : List Term, (∀ t ∈ ts, P t.2) → P (weightedSum ts)
  product : ∀ es : List Expr, (∀ e ∈ es, P e) → P (product es)
  chain : ∀ (es : List Expr) (x : Expr), (∀ e ∈ es, P e) → chain es = .ok x → P x
  smul : ∀ (c : ℚ) (e : Expr), P e → P (c • e)
  add : ∀ d e : Expr, P d → P e → P (d + e)
  sub : ∀ d e : Expr, P d → P e → P (d - e)
  mul : ∀ d e : Expr, P d → P e → P (d * e)
  neg : ∀ e : Expr, P e → P (-e)
  adjoint : ∀ e : Expr, P e → P e.adjoint
  rename : ∀ (σ : Renaming) (e : Expr), P e → P (e.rename σ)
  reduceDeltas : ∀ e : Expr, P e → P e.reduceDeltas
  renumberDummies : ∀ e : Expr, P e → P e.renumberDummies
  expandAntisymmetric : ∀ e : Expr, P e → P e.expandAntisymmetric
  contract : ∀ (o : Options) (M : Pattern) (e : Expr) (x : Evaluation), P e →
    contract o M e = .ok x → P x.source ∧ P x.result
  vacuumMean : ∀ (ps : List Pair) (e x : Expr), P e → vacuumMean ps e = .ok x → P x

open Builder Drawing in
/-- Whether every builder returns a tree with a property on every context. -/
structure YieldedByBuilders (P : Expr → Prop) : Prop where
  normalOrdered : ∀ name s cre ann, Yields P (normalOrdered name s cre ann)
  excitation : ∀ n, Yields P (excitation n)
  cluster : ∀ n, Yields P (cluster n)
  clusterAdjoint : ∀ n, Yields P (clusterAdjoint n)
  clusterUpTo : ∀ n, Yields P (clusterUpTo n)
  hamiltonian : ∀ n, Yields P (hamiltonian n)
  hamiltonianUpTo : ∀ n, Yields P (hamiltonianUpTo n)
  electronicHamiltonian : Yields P electronicHamiltonian
  photonHamiltonian : ∀ n, Yields P (photonHamiltonian n)
  photonHamiltonianUpTo : ∀ n, Yields P (photonHamiltonianUpTo n)
  electronPhotonCoupling : Yields P electronPhotonCoupling
  coupledHamiltonian : Yields P coupledHamiltonian

/-- Every operation keeps trees canonical. -/
theorem closedUnderOperations_isCanonical : ClosedUnderOperations IsCanonical where
  const := .const
  cNumber _ _ _ _ := isCanonical_ofTensor _
  ofTensor := isCanonical_ofTensor
  creation := isCanonical_creation
  annihilation := isCanonical_annihilation
  total _ := isCanonical_total
  weightedSum _ := isCanonical_weightedSum
  product _ := isCanonical_product
  chain _ _ h hx := isCanonical_chain h hx
  smul c _ := isCanonical_smul c
  add _ _ := isCanonical_add
  sub _ _ := isCanonical_sub
  mul _ _ := isCanonical_mul
  neg _ := isCanonical_smul (-1)
  adjoint e _ := isCanonical_adjoint e
  rename σ e _ := isCanonical_rename σ e
  reduceDeltas _ := isCanonical_reduceDeltas
  renumberDummies e _ := isCanonical_renumberDummies e
  expandAntisymmetric e _ := isCanonical_expandAntisymmetric e
  contract _ _ _ _ _ h := by
    refine ⟨?_, isCanonical_of_contract h⟩
    obtain ⟨_, rfl⟩ := contract_eq_ok_iff.mp h
    exact isCanonical_canonical _
  vacuumMean _ _ _ _ := isCanonical_of_vacuumMean

/-- Every builder returns canonical trees. -/
theorem yieldedByBuilders_isCanonical : YieldedByBuilders IsCanonical where
  normalOrdered := Builder.yields_normalOrdered
  excitation := Builder.yields_particleHole "A"
  cluster := Builder.yields_particleHole "t"
  clusterAdjoint := Builder.yields_clusterAdjoint
  clusterUpTo n := Builder.yields_upTo (fun k => Builder.yields_particleHole "t" k) n.toNat
  hamiltonian := Builder.yields_hamiltonian
  hamiltonianUpTo := Builder.yields_upTo Builder.yields_hamiltonian
  electronicHamiltonian := Builder.yields_upTo Builder.yields_hamiltonian 2
  photonHamiltonian := Builder.yields_photonHamiltonian
  photonHamiltonianUpTo := Builder.yields_upTo Builder.yields_photonHamiltonian
  electronPhotonCoupling := Builder.yields_electronPhotonCoupling
  coupledHamiltonian := Builder.yields_coupledHamiltonian

/-- **The invariant of canonical trees.**  Canonical forms are canonical, the canonical trees are
exactly their own canonical forms, so taking the canonical form twice changes nothing, and all
operations and builders stay among canonical trees. -/
theorem canonical_invariant :
    (∀ e : Expr, e.canonical.IsCanonical) ∧
    (∀ e : Expr, e.canonical = e ↔ e.IsCanonical) ∧
    (∀ e : Expr, e.canonical.canonical = e.canonical) ∧
    ClosedUnderOperations IsCanonical ∧ YieldedByBuilders IsCanonical :=
  ⟨isCanonical_canonical, fun _ => canonical_eq_self_iff,
    fun e => canonical_eq_self (isCanonical_canonical e), closedUnderOperations_isCanonical,
    yieldedByBuilders_isCanonical⟩

end Expr

end SecondQuant
