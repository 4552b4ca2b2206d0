import SecondQuant.Proofs.Excitations
import SecondQuant.Proofs.FreshIndices

/-!
# The indices of the builders

A builder puts every dummy that it draws once on its amplitude and once on one of its operators, and
a sum of builders draws anew for each of its members, so on one context nothing is handed out twice
and nothing that is handed out is lost.

* `Expr.words_eq_of_denote` — what denotes a c-number before a string of operators is a single word.
* `Builder.HandsOut` — builders whose words use exactly the dummies that they draw; normal-ordered
  operators, sums and adjoints are of this kind.
* `Request`, `Answer`, `answers` — a list of requests that is answered on one context.
* `answers_partition_indices` — **each answer has exactly the dummies that the context counts for
  it, no two answers share one, and in an expression each of them stands once in a c-number and once
  on an operator of a single term**.
-/

namespace SecondQuant

open OperatorAlgebra (gen)

/-! ## A c-number before operators -/

namespace Tensor

theorem indices_sorted_perm (t : Tensor) : t.sorted.indices.Perm t.indices :=
  (sortBy_perm _ _).append (sortBy_perm _ _)

theorem indices_perm_of_canonical? {t u : Tensor} {s : Sign} (h : t.canonical? = some (s, u)) :
    u.indices.Perm t.indices := by
  rw [canonical?] at h
  cases hs : t.symmetry with
  | plain =>
      simp only [hs, Option.some.injEq, Prod.mk.injEq] at h
      rw [← h.2]
  | symmetric =>
      simp only [hs, Option.some.injEq, Prod.mk.injEq] at h
      rw [← h.2]
      exact t.indices_sorted_perm
  | antisymmetric =>
      simp only [hs, Option.ite_none_right_eq_some, Option.some.injEq, Prod.mk.injEq] at h
      rw [← h.2.2]
      exact t.indices_sorted_perm

theorem exists_canonical?_of_nodup {t : Tensor} (h : t.indices.Nodup) :
    ∃ s u, t.canonical? = some (s, u) := by
  cases hs : t.symmetry with
  | plain => exact ⟨_, _, canonical?_of_plain hs⟩
  | symmetric => exact ⟨_, _, canonical?_of_symmetric hs⟩
  | antisymmetric =>
      exact ⟨_, _, canonical?_of_distinct hs ⟨h.of_append_left, h.of_append_right⟩⟩

theorem isOperator_of_canonical? {t u : Tensor} {s : Sign} (h : t.canonical? = some (s, u)) :
    u.isOperator = t.isOperator := by
  rw [isOperator, ladder_of_canonical? h, isOperator]

end Tensor

/-- The normal form of a c-number before operators has that c-number alone. -/
theorem Word.cNumbers_normal_cons {t : Tensor} {os : Word} (ht : t.isOperator = false)
    (hos : ∀ o ∈ os, o.isOperator = true) : (normal (t :: os)).cNumbers = [t] := by
  refine List.perm_singleton.mp ?_
  rw [← cNumbers_append (List.forall_mem_singleton.mpr ht) hos]
  exact (normal_perm _).filter _

theorem Word.operators_normal_cons {t : Tensor} {os : Word} (ht : t.isOperator = false)
    (hos : ∀ o ∈ os, o.isOperator = true) : (normal (t :: os)).operators = os := by
  rw [operators_normal]
  exact operators_append (List.forall_mem_singleton.mpr ht) hos

/-- A c-number before operators with the same indices, each of them once, pairs its indices. -/
theorem Word.pairsIndices_normal {t : Tensor} {os : Word} (ht : t.isOperator = false)
    (hos : ∀ o ∈ os, o.isOperator = true) (hnodup : t.indices.Nodup)
    (hperm : (indices os).Perm t.indices) : PairsIndices (normal (t :: os)) := by
  have hsingle : indices [t] = t.indices := List.append_nil _
  intro i hi
  have hmem : i ∈ t.indices := by
    rcases mem_indices_cons.mp (mem_indices_normal.mp hi) with hi | hi
    · exact hi
    · exact hperm.mem_iff.mp hi
  rw [cNumbers_normal_cons ht hos, operators_normal_cons ht hos, hsingle, hperm.count_eq]
  exact ⟨List.count_eq_one_of_mem hnodup hmem, List.count_eq_one_of_mem hnodup hmem⟩

namespace Expr

variable {c c' : IndexContext} {e : Expr} {k : ℚ} {t : Tensor} {os : Word}

/-- An expression that denotes a c-number before operators is a single word. -/
theorem words_eq_of_denote (hk : k ≠ 0) (he : e.denote = k • Word.eval gen (t :: os))
    (hos : ∀ o ∈ os, o.IsCanonical) {s : Sign} {u : Tensor} (ht : t.canonical? = some (s, u)) :
    e.words = [(k * s.toRat, Word.normal (u :: os))] := by
  refine words_eq_singleton (mul_ne_zero hk s.toRat_ne_zero)
    (List.forall_mem_cons.mpr ⟨Tensor.isCanonical_of_canonical? ht, hos⟩) ?_
  rw [he, Word.eval_cons, Word.gen_eq, ht, Word.eval_cons, mul_smul]
  simp only [Option.elim_some, smul_mul_assoc]

/-- If the operators have the indices of the c-number, and these have just been drawn, the
expression owns them. -/
theorem handedOut_of_denote (hk : k ≠ 0) (he : e.denote = k • Word.eval gen (t :: os))
    (ht : t.isOperator = false) (hos : ∀ o ∈ os, o.isOperator = true ∧ o.IsCanonical)
    (hperm : (Word.indices os).Perm t.indices) (h : HandedOut c c' t.indices) :
    e.words.HandedOut c c' ∧ (t.indices ≠ [] → e.words.HasIndices) := by
  obtain ⟨s, u, hu⟩ := Tensor.exists_canonical?_of_nodup h.nodup
  have hindices := Tensor.indices_perm_of_canonical? hu
  rw [words_eq_of_denote hk he (fun o ho => (hos o ho).2) hu]
  have hmem : ∀ i, i ∈ (Word.normal (u :: os)).indices ↔ i ∈ t.indices := by
    intro i
    rw [Word.mem_indices_normal, Word.mem_indices_cons, hindices.mem_iff, hperm.mem_iff, or_self]
  refine ⟨⟨h.le, ?_, ?_, List.pairwise_singleton _ _⟩, ?_⟩
  · intro i
    simp only [List.mem_singleton, exists_eq_left]
    rw [hmem, h.mem_iff]
  · refine List.forall_mem_singleton.mpr (Word.pairsIndices_normal ?_ (fun o ho => (hos o ho).1)
      (hindices.nodup_iff.mpr h.nodup) (hperm.trans hindices.symm))
    rw [Tensor.isOperator_of_canonical? hu, ht]
  · intro hne
    obtain ⟨i, hi⟩ := List.exists_mem_of_ne_nil _ hne
    exact List.forall_mem_singleton.mpr (List.ne_nil_of_mem ((hmem i).mpr hi))

end Expr

/-! ## Builders -/

namespace Builder

open Drawing

/-- Whether what a builder yields uses exactly the dummies that it draws. -/
def HandsOut (d : Drawing Expr) : Prop :=
  ∀ c, (d.run c).1.words.HandedOut c (d.run c).2

/-- Whether, besides, every word of it has an index, so that no two of its words can merge. -/
structure Separates (d : Drawing Expr) : Prop where
  handsOut : HandsOut d
  hasIndices : Yields (fun e => e.words.HasIndices) d

/-- What has no index draws nothing. -/
theorem handsOut_pure {e : Expr} (h : ∀ t ∈ e.words, t.2.indices = []) : HandsOut (pure e) := by
  intro c
  refine ⟨le_rfl, fun i => iff_of_false ?_ (i.not_drawnBetween_self c), ?_, ?_⟩
  · rintro ⟨t, ht, hi⟩
    rw [h t ht] at hi
    cases hi
  · intro t ht i hi
    rw [h t ht] at hi
    cases hi
  · refine List.pairwise_of_forall_mem_list fun s hs t _ i hi => ?_
    rw [h s hs] at hi
    cases hi

theorem handsOut_one : HandsOut (pure Expr.one) :=
  handsOut_pure (List.forall_mem_singleton.mpr rfl)

theorem handsOut_zero : HandsOut (pure Expr.zero) :=
  handsOut_pure (List.forall_mem_nil _)

/-- Adjoints of builders hand out the same dummies. -/
theorem HandsOut.adjoint {d : Drawing Expr} (h : HandsOut d) : HandsOut (Expr.adjoint <$> d) :=
  fun c => Expr.handedOut_adjoint (h c)

theorem Separates.adjoint {d : Drawing Expr} (h : Separates d) :
    Separates (Expr.adjoint <$> d) where
  handsOut := h.handsOut.adjoint
  hasIndices c := Expr.hasIndices_adjoint (h.hasIndices c)

/-! ### Normal-ordered operators -/

theorem indices_ladders_perm (s : Statistics) (cre ann : List Index) :
    (Word.indices (ladders s cre ann)).Perm (cre ++ ann) := by
  have hoperators : ∀ (l : Ladder) (is : List Index),
      Word.indices (is.map (.elementary l)) = is := by
    intro l is
    rw [Word.indices, List.flatMap_map]
    exact List.flatMap_singleton' is
  rw [ladders, Word.indices, List.flatMap_append]
  exact .append (.of_eq (hoperators _ cre)) ((List.Perm.of_eq (hoperators _ _)).trans
    (List.reverse_perm ann))

/-- A normal-ordered operator owns the dummies that it is built on. -/
theorem handedOut_normalProduct (name : String) (s : Statistics) {cre ann : List Index}
    {c c' : IndexContext} (h : SecondQuant.HandedOut c c' (cre ++ ann)) :
    (normalProduct name s cre ann).words.HandedOut c c' ∧
      (cre ++ ann ≠ [] → (normalProduct name s cre ann).words.HasIndices) :=
  Expr.handedOut_of_denote (weight_ne_zero _ _) (denote_normalProduct name s cre ann) rfl
    (fun o ho =>
      ⟨isOperator_of_mem_ladders s cre ann o ho, isCanonical_of_mem_ladders s cre ann o ho⟩)
    (indices_ladders_perm s cre ann) h

theorem handsOut_normalOrdered (name : String) (s : Statistics) (cre ann : List Space) :
    HandsOut (normalOrdered name s cre ann) :=
  fun c => (handedOut_normalProduct name s
    ((handedOut_drawEach cre c).append (handedOut_drawEach ann _))).1

theorem length_drawEach (ss : List Space) (c : IndexContext) :
    ((drawEach ss).run c).1.length = ss.length := by
  induction ss generalizing c with
  | nil => rfl
  | cons s ss ih => exact congrArg (· + 1) (ih (c.record s))

theorem separates_normalOrdered (name : String) (s : Statistics) {cre : List Space}
    (ann : List Space) (hcre : cre ≠ []) : Separates (normalOrdered name s cre ann) where
  handsOut := handsOut_normalOrdered name s cre ann
  hasIndices c := by
    refine (handedOut_normalProduct name s
      ((handedOut_drawEach cre c).append (handedOut_drawEach ann _))).2 fun hnil => hcre ?_
    have hlength := length_drawEach cre c
    rw [(List.append_eq_nil_iff.mp hnil).1] at hlength
    exact List.eq_nil_of_length_eq_zero hlength.symm

/-! ### Sums -/

/-- The sum of what some builders yield, one after the other. -/
def inTurn (ds : List (Drawing Expr)) : Drawing Expr := do
  let parts ← ds.mapM id
  return Expr.total parts

/-- Builders that are run one after the other share no dummy. -/
theorem handedOut_mapM {ds : List (Drawing Expr)} (h : ∀ d ∈ ds, HandsOut d) (c : IndexContext) :
    WordSum.HandedOut c ((ds.mapM id).run c).2
      (((ds.mapM id).run c).1.flatMap Expr.words) := by
  induction ds generalizing c with
  | nil => exact .nil c
  | cons d ds ih =>
      rw [List.mapM_cons]
      obtain ⟨hd, hds⟩ := List.forall_mem_cons.mp h
      exact (hd c).append (ih hds _)

/-- No two words of the sum merge, so it owns what its members own. -/
theorem separates_inTurn {ds : List (Drawing Expr)} (h : ∀ d ∈ ds, Separates d) :
    Separates (inTurn ds) := by
  have hsum : ∀ c, ((inTurn ds).run c).1.words.Perm
      (((ds.mapM id).run c).1.flatMap Expr.words) ∧ WordSum.HasIndices
        (((ds.mapM id).run c).1.flatMap Expr.words) := by
    intro c
    have hne : WordSum.HasIndices (((ds.mapM id).run c).1.flatMap Expr.words) := by
      intro t ht
      obtain ⟨e, he, ht⟩ := List.mem_flatMap.mp ht
      exact yields_mapM (fun d hd => (h d hd).hasIndices) c e he t ht
    exact ⟨Expr.words_total_perm (handedOut_mapM (fun d hd => (h d hd).handsOut) c) hne, hne⟩
  constructor
  · exact fun c => (handedOut_mapM (fun d hd => (h d hd).handsOut) c).perm (hsum c).1
  · exact fun c t ht => (hsum c).2 t ((hsum c).1.mem_iff.mp ht)

theorem upTo_eq_inTurn (build : ℕ → Drawing Expr) (n : ℕ) :
    upTo build n = inTurn ((List.range n).map fun k => build (k + 1)) := by
  rw [inTurn, List.mapM_map]
  rfl

theorem separates_upTo {build : ℕ → Drawing Expr} (h : ∀ k, Separates (build (k + 1))) (n : ℕ) :
    Separates (upTo build n) := by
  rw [upTo_eq_inTurn]
  exact separates_inTurn (List.forall_mem_map.mpr fun k _ => h k)

/-! ### Particle-hole operators and Hamiltonians -/

theorem separates_particleHole (name : String) {n : ℤ} (hn : n ≠ 0) :
    Separates (particleHole name n) := by
  have hrank : List.replicate n.natAbs Space.virtual ≠ [] := by
    intro hnil
    have := congrArg List.length hnil
    rw [List.length_replicate, List.length_nil] at this
    omega
  have hbuilt := separates_normalOrdered name .fermion (List.replicate n.natAbs .occupied) hrank
  rw [particleHole, if_neg hn]
  by_cases hpos : 0 < n
  · simp only [if_pos hpos]
    exact hbuilt
  · simp only [if_neg hpos]
    exact hbuilt.adjoint

theorem handsOut_particleHole (name : String) (n : ℤ) : HandsOut (particleHole name n) := by
  by_cases hn : n = 0
  · rw [particleHole, if_pos hn]
    exact handsOut_one
  · exact (separates_particleHole name hn).handsOut

theorem separates_clusterUpTo (n : ℤ) : Separates (clusterUpTo n) :=
  separates_upTo (fun k => separates_particleHole "t" (by omega)) n.toNat

theorem separates_hamiltonian_succ (n : ℕ) : Separates (hamiltonian (n + 1)) :=
  separates_normalOrdered _ _ _ (List.cons_ne_nil _ _)

theorem separates_hamiltonianUpTo (n : ℕ) : Separates (hamiltonianUpTo n) :=
  separates_upTo separates_hamiltonian_succ n

theorem handsOut_hamiltonian (n : ℕ) : HandsOut (hamiltonian n) := by
  cases n with
  | zero => exact handsOut_zero
  | succ n => exact (separates_hamiltonian_succ n).handsOut

theorem separates_photonHamiltonian_succ (n : ℕ) : Separates (photonHamiltonian (n + 1)) :=
  separates_normalOrdered _ _ _ (List.cons_ne_nil _ _)

theorem separates_photonHamiltonianUpTo (n : ℕ) : Separates (photonHamiltonianUpTo n) :=
  separates_upTo separates_photonHamiltonian_succ n

theorem handsOut_photonHamiltonian (n : ℕ) : HandsOut (photonHamiltonian n) := by
  cases n with
  | zero => exact handsOut_zero
  | succ n => exact (separates_photonHamiltonian_succ n).handsOut

/-! ### The coupling -/

/-- A plain c-number before elementary operators with the same indices owns them, if they have just
been drawn. -/
theorem handedOut_vertex {name : String} (upper lower : List Index) (os : List (Ladder × Index))
    (hperm : (upper ++ lower).Perm (os.map Prod.snd)) {c c' : IndexContext}
    (h : SecondQuant.HandedOut c c' (os.map Prod.snd)) (hne : os ≠ []) :
    let e := Expr.product (Expr.cNumber name upper lower .plain ::
      os.map fun o => Expr.tensor (.elementary o.1 o.2))
    e.words.HandedOut c c' ∧ e.words.HasIndices := by
  intro e
  have hoperators : ∀ o ∈ os.map fun o => Tensor.elementary o.1 o.2,
      o.isOperator = true ∧ o.IsCanonical :=
    List.forall_mem_map.mpr fun _ _ => ⟨rfl, Tensor.isCanonical_of_plain rfl⟩
  have hdenote : e.denote = (1 : ℚ) • Word.eval gen
      (.cNumber name upper lower .plain :: os.map fun o => .elementary o.1 o.2) := by
    rw [Expr.denote_product, List.map_cons, List.prod_cons, Expr.cNumber, Expr.denote_ofTensor,
      one_smul, Word.eval_cons, Word.eval, List.map_map, List.map_map]
    rfl
  have hindices : (Word.indices (os.map fun o => .elementary o.1 o.2)).Perm (upper ++ lower) := by
    rw [Word.indices, List.flatMap_map]
    exact .trans (.of_eq List.map_eq_flatMap.symm) hperm.symm
  have howned := Expr.handedOut_of_denote one_ne_zero hdenote rfl hoperators hindices (h.perm hperm)
  refine ⟨howned.1, howned.2 fun hnil => hne ?_⟩
  rw [show upper ++ lower = [] from hnil] at hperm
  exact List.map_eq_nil_iff.mp hperm.symm.eq_nil

theorem handedOut_emission {p q x : Index} {c c' : IndexContext}
    (h : SecondQuant.HandedOut c c' [p, q, x]) :
    (emission p q x).words.HandedOut c c' ∧ (emission p q x).words.HasIndices :=
  handedOut_vertex [p, x] [q]
    [(⟨.fermion, .creation⟩, p), (⟨.fermion, .annihilation⟩, q), (⟨.boson, .creation⟩, x)]
    (.cons p (.swap q x [])) h (List.cons_ne_nil _ _)

theorem handedOut_absorption {p q x : Index} {c c' : IndexContext}
    (h : SecondQuant.HandedOut c c' [p, q, x]) :
    (absorption p q x).words.HandedOut c c' ∧ (absorption p q x).words.HasIndices :=
  handedOut_vertex [p] [q, x]
    [(⟨.fermion, .creation⟩, p), (⟨.fermion, .annihilation⟩, q), (⟨.boson, .annihilation⟩, x)]
    (.refl _) h (List.cons_ne_nil _ _)

/-- Two electron states and a photon, drawn for a part of the coupling. -/
def drawVertex (part : Index → Index → Index → Expr) : Drawing Expr := do
  let p ← draw .general
  let q ← draw .general
  let x ← draw .photon
  return part p q x

theorem separates_drawVertex {part : Index → Index → Index → Expr}
    (h : ∀ {p q x : Index} {c c' : IndexContext}, SecondQuant.HandedOut c c' [p, q, x] →
      (part p q x).words.HandedOut c c' ∧ (part p q x).words.HasIndices) :
    Separates (drawVertex part) :=
  have hdrawn := handedOut_drawEach [.general, .general, .photon]
  ⟨fun c => (h (hdrawn c)).1, fun c => (h (hdrawn c)).2⟩

/-- Emission and absorption have dummies of their own. -/
theorem separates_electronPhotonCoupling : Separates electronPhotonCoupling := by
  have hturns : electronPhotonCoupling =
      inTurn [drawVertex emission, drawVertex absorption] := rfl
  rw [hturns]
  exact separates_inTurn (List.forall_mem_cons.mpr ⟨separates_drawVertex handedOut_emission,
    List.forall_mem_singleton.mpr (separates_drawVertex handedOut_absorption)⟩)

/-- Electrons, photons and their coupling have dummies of their own. -/
theorem separates_coupledHamiltonian : Separates coupledHamiltonian := by
  have hturns : coupledHamiltonian =
      inTurn [electronicHamiltonian, photonHamiltonian 1, electronPhotonCoupling] := rfl
  rw [hturns]
  refine separates_inTurn (List.forall_mem_cons.mpr ⟨?_, List.forall_mem_cons.mpr
    ⟨?_, List.forall_mem_singleton.mpr ?_⟩⟩)
  · exact separates_hamiltonianUpTo 2
  · exact separates_photonHamiltonian_succ 0
  · exact separates_electronPhotonCoupling

end Builder

/-! ## Requests on one context -/

/-- What can be asked of a context: dummies, or an operator on dummies. -/
inductive Request where
  | index (s : Space)
  | indices (s : Space) (n : ℕ)
  | normalOrdered (name : String) (s : Statistics) (creations annihilations : List Space)
  | excitation (n : ℤ)
  | cluster (n : ℤ)
  | clusterAdjoint (n : ℤ)
  | clusterUpTo (n : ℤ)
  | hamiltonian (n : ℕ)
  | hamiltonianUpTo (n : ℕ)
  | electronicHamiltonian
  | photonHamiltonian (n : ℕ)
  | photonHamiltonianUpTo (n : ℕ)
  | electronPhotonCoupling
  | coupledHamiltonian

/-- What a request yields. -/
inductive Reply where
  | indices (is : List Index)
  | expression (e : Expr)

/-- The indices that occur in what a request yields. -/
def Reply.allIndices : Reply → List Index
  | indices is => is
  | expression e => e.indices

/-- What a request yields on a context. -/
def Request.reply : Request → Drawing Reply
  | index s => (fun i => .indices [i]) <$> Drawing.draw s
  | indices s n => .indices <$> Drawing.drawMany s n
  | normalOrdered name s cre ann => .expression <$> Builder.normalOrdered name s cre ann
  | excitation n => .expression <$> Builder.excitation n
  | cluster n => .expression <$> Builder.cluster n
  | clusterAdjoint n => .expression <$> Builder.clusterAdjoint n
  | clusterUpTo n => .expression <$> Builder.clusterUpTo n
  | hamiltonian n => .expression <$> Builder.hamiltonian n
  | hamiltonianUpTo n => .expression <$> Builder.hamiltonianUpTo n
  | electronicHamiltonian => .expression <$> Builder.electronicHamiltonian
  | photonHamiltonian n => .expression <$> Builder.photonHamiltonian n
  | photonHamiltonianUpTo n => .expression <$> Builder.photonHamiltonianUpTo n
  | electronPhotonCoupling => .expression <$> Builder.electronPhotonCoupling
  | coupledHamiltonian => .expression <$> Builder.coupledHamiltonian

/-- What a request yields, with the context before and after it. -/
structure Answer where
  before : IndexContext
  reply : Reply
  after : IndexContext

/-- A request answered, with a look at the context before and after. -/
def Request.answer (r : Request) : Drawing Answer := do
  let before ← get
  let reply ← r.reply
  let after ← get
  return ⟨before, reply, after⟩

/-- The answers to a list of requests, made one after the other on one context. -/
def answers (rs : List Request) (c : IndexContext) : List Answer :=
  ((rs.mapM Request.answer).run c).1

/-! ## One answer -/

namespace Expr

/-- The indices on the c-numbers of an expression. -/
def cNumberIndices (e : Expr) : List Index :=
  Word.indices (Word.cNumbers e.leaves)

/-- The indices on the operators of an expression. -/
def operatorIndices (e : Expr) : List Index :=
  Word.indices e.operators

/-- Whether an index occurs in a single term of an expression, twice: once in a c-number and once on
an operator. -/
def PairsIndex (e : Expr) (i : Index) : Prop :=
  ∃ t rest, e.terms.Perm (t :: rest) ∧
    t.2.indices.count i = 2 ∧ t.2.cNumberIndices.count i = 1 ∧ t.2.operatorIndices.count i = 1 ∧
    ∀ u ∈ rest, i ∉ u.2.indices

end Expr

/-- Whether a reply has exactly the dummies handed out between two contexts, each of them once in a
list, and paired in an expression. -/
def Reply.HandedOut (c c' : IndexContext) : Reply → Prop
  | .indices is => SecondQuant.HandedOut c c' is
  | .expression e => e.IsCanonical ∧ e.words.HandedOut c c'

theorem Reply.handedOut_expression {d : Drawing Expr} (hcan : d.Yields Expr.IsCanonical)
    (h : Builder.HandsOut d) (c : IndexContext) :
    (((Reply.expression <$> d).run c).1).HandedOut c ((Reply.expression <$> d).run c).2 :=
  ⟨hcan c, h c⟩

open Builder in
theorem Request.handedOut_reply (r : Request) (c : IndexContext) :
    (r.reply.run c).1.HandedOut c (r.reply.run c).2 := by
  have hbuilt := Expr.yieldedByBuilders_isCanonical
  cases r with
  | index s => exact handedOut_draw c s
  | indices s n => exact handedOut_drawEach (List.replicate n s) c
  | normalOrdered name s cre ann =>
      exact Reply.handedOut_expression (hbuilt.normalOrdered name s cre ann)
        (handsOut_normalOrdered name s cre ann) c
  | excitation n =>
      exact Reply.handedOut_expression (hbuilt.excitation n) (handsOut_particleHole "A" n) c
  | cluster n =>
      exact Reply.handedOut_expression (hbuilt.cluster n) (handsOut_particleHole "t" n) c
  | clusterAdjoint n =>
      exact Reply.handedOut_expression (hbuilt.clusterAdjoint n)
        (handsOut_particleHole "t" n).adjoint c
  | clusterUpTo n =>
      exact Reply.handedOut_expression (hbuilt.clusterUpTo n) (separates_clusterUpTo n).handsOut c
  | hamiltonian n =>
      exact Reply.handedOut_expression (hbuilt.hamiltonian n) (handsOut_hamiltonian n) c
  | hamiltonianUpTo n =>
      exact Reply.handedOut_expression (hbuilt.hamiltonianUpTo n)
        (separates_hamiltonianUpTo n).handsOut c
  | electronicHamiltonian =>
      exact Reply.handedOut_expression hbuilt.electronicHamiltonian
        (separates_hamiltonianUpTo 2).handsOut c
  | photonHamiltonian n =>
      exact Reply.handedOut_expression (hbuilt.photonHamiltonian n) (handsOut_photonHamiltonian n) c
  | photonHamiltonianUpTo n =>
      exact Reply.handedOut_expression (hbuilt.photonHamiltonianUpTo n)
        (separates_photonHamiltonianUpTo n).handsOut c
  | electronPhotonCoupling =>
      exact Reply.handedOut_expression hbuilt.electronPhotonCoupling
        separates_electronPhotonCoupling.handsOut c
  | coupledHamiltonian =>
      exact Reply.handedOut_expression hbuilt.coupledHamiltonian
        separates_coupledHamiltonian.handsOut c

section Reply

variable {c c' : IndexContext}

theorem Expr.mem_indices_iff_words {e : Expr} (he : e.IsCanonical) {i : Index} :
    i ∈ e.indices ↔ ∃ t ∈ e.words, i ∈ t.2.indices := by
  rw [mem_indices_iff_terms he, terms_eq_words he]
  simp only [List.mem_map, exists_exists_and_eq_and, Word.indices_monomial]

theorem Reply.le_of_handedOut {x : Reply} (h : x.HandedOut c c') : c ≤ c' := by
  cases x with
  | indices is => exact h.le
  | expression e => exact h.2.le

theorem Reply.mem_allIndices {x : Reply} (h : x.HandedOut c c') {i : Index} :
    i ∈ x.allIndices ↔ i.DrawnBetween c c' := by
  cases x with
  | indices is => exact h.mem_iff i
  | expression e => exact (Expr.mem_indices_iff_words h.1).trans (h.2.mem_iff i)

/-- An expression that owns its indices pairs each of them in one of its terms. -/
theorem Expr.pairsIndex_of_handedOut {e : Expr} (he : e.IsCanonical) (h : e.words.HandedOut c c')
    {i : Index} (hi : i ∈ e.indices) : e.PairsIndex i := by
  obtain ⟨t, ht, hit⟩ := (mem_indices_iff_words he).mp hi
  obtain ⟨before, later, hwords⟩ := List.append_of_mem ht
  have hperm : e.words.Perm (t :: (before ++ later)) := hwords ▸ List.perm_middle
  have hterms := hperm.map fun t => (t.1, t.2.monomial)
  rw [← terms_eq_words he] at hterms
  obtain ⟨hcNumber, hoperator⟩ := h.pairs t ht i hit
  refine ⟨_, _, hterms, ?_, ?_, ?_, ?_⟩
  · rw [Word.indices_monomial, Word.count_indices, hcNumber, hoperator]
  · rw [cNumberIndices, Word.leaves_monomial, hcNumber]
  · rw [operatorIndices, operators, Word.leaves_monomial]
    exact hoperator
  · intro u hu hiu
    obtain ⟨v, hv, rfl⟩ := List.mem_map.mp hu
    rw [Word.indices_monomial] at hiu
    have hapart := (hperm.pairwise_iff fun h => h.symm).mp h.apart
    exact List.rel_of_pairwise_cons hapart hv hit hiu

end Reply

/-! ## A run of requests -/

/-- Whether each index of a reply is there once in a list, and paired in an expression. -/
def Reply.IsTidy : Reply → Prop
  | .indices is => is.Nodup
  | .expression e => ∀ i ∈ e.indices, e.PairsIndex i

/-- The first request is answered on the context, the others on what it leaves. -/
theorem answers_cons (r : Request) (rs : List Request) (c : IndexContext) :
    answers (r :: rs) c =
      ⟨c, (r.reply.run c).1, (r.reply.run c).2⟩ :: answers rs (r.reply.run c).2 := by
  rw [answers, List.mapM_cons]
  rfl

/-- A request leaves the context above where it was, and its reply has what lies between. -/
theorem handedOut_answers (rs : List Request) (c : IndexContext) :
    ∀ a ∈ answers rs c, c ≤ a.before ∧ a.reply.HandedOut a.before a.after := by
  induction rs generalizing c with
  | nil => exact List.forall_mem_nil _
  | cons r rs ih =>
      have hreply := r.handedOut_reply c
      rw [answers_cons]
      refine List.forall_mem_cons.mpr ⟨⟨le_rfl, hreply⟩, fun a ha => ?_⟩
      obtain ⟨hle, ha⟩ := ih _ a ha
      exact ⟨(Reply.le_of_handedOut hreply).trans hle, ha⟩

/-- Later requests have none of the indices of an earlier one. -/
theorem pairwise_disjoint_answers (rs : List Request) (c : IndexContext) :
    (answers rs c).Pairwise fun a b => a.reply.allIndices.Disjoint b.reply.allIndices := by
  induction rs generalizing c with
  | nil => exact .nil
  | cons r rs ih =>
      rw [answers_cons]
      refine .cons (fun b hb i hi hj => ?_) (ih _)
      obtain ⟨hle, hb⟩ := handedOut_answers rs _ b hb
      have hi := (Reply.mem_allIndices (r.handedOut_reply c)).mp hi
      exact hi.not_later (.mono hle ((Reply.mem_allIndices hb).mp hj))

theorem map_reply_answers (rs : List Request) (c : IndexContext) :
    (answers rs c).map Answer.reply = ((rs.mapM Request.reply).run c).1 := by
  induction rs generalizing c with
  | nil => rfl
  | cons r rs ih =>
      rw [answers_cons, List.map_cons, ih, List.mapM_cons]
      rfl

/-- **Requests on one context share no index and waste none.**  Whatever the context and the list of
requests, each reply has exactly the dummies that are numbered from what the context has counted
before it to what it has counted after it, the counts never go down, each index of an expression
stands in one of its terms only, once in a c-number and once on an operator, and no two replies have
an index in common. -/
theorem answers_partition_indices (rs : List Request) (c : IndexContext) :
    (answers rs c).map Answer.reply = ((rs.mapM Request.reply).run c).1 ∧
    (∀ a ∈ answers rs c,
      (∀ s, a.before.drawn s ≤ a.after.drawn s) ∧
      (∀ s i, i ∈ a.reply.allIndices ∧ i.space = s ↔
        ∃ n, a.before.drawn s < n ∧ n ≤ a.after.drawn s ∧ i = .dummy s n) ∧
      a.reply.IsTidy) ∧
    (answers rs c).Pairwise fun a b => a.reply.allIndices.Disjoint b.reply.allIndices := by
  refine ⟨map_reply_answers rs c, fun a ha => ?_, pairwise_disjoint_answers rs c⟩
  obtain ⟨-, ha⟩ := handedOut_answers rs c a ha
  refine ⟨Reply.le_of_handedOut ha, fun s i => ?_, ?_⟩
  · rw [Reply.mem_allIndices ha]
    constructor
    · rintro ⟨⟨hdummy, hlt, hle⟩, rfl⟩
      exact ⟨i.number, hlt, hle, by rw [Index.dummy, ← hdummy]⟩
    · rintro ⟨n, hlt, hle, rfl⟩
      exact ⟨⟨rfl, hlt, hle⟩, rfl⟩
  · obtain ⟨before, x, after⟩ := a
    cases x with
    | indices is => exact ha.nodup
    | expression e => exact fun i hi => Expr.pairsIndex_of_handedOut ha.1 ha.2 hi

end SecondQuant
