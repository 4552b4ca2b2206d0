import SecondQuant.Proofs.AdjointAlgebra
import SecondQuant.Proofs.Relabelling

/-!
# Building on another context

A builder draws its dummies from a context.  Run on another context it draws as many of each space
in the same order, only their numbers count from elsewhere, so it builds the same expression with
other labels.  This is followed through two runs side by side: related runs draw related indices and
leave contexts that have handed out equally many.

* `IndexContext.recount`, `relabels_recount` — the renaming between two contexts.
* `Drawing.Relates` — two runs with related results; `Drawing.relates_bind` and
  `Drawing.relates_mapM` put them together.
* `Drawing.drawEach_recount` — the draws of one space after another, on two contexts.
* `Expr.MovesTo` — an expression and its counterpart; `Expr.movesTo_product` and
  `Expr.movesTo_weightedSum` carry it through operations.
* `Builder.Builds`, `Builder.Builds.recount` — programs made of builders, on two contexts.
-/

namespace SecondQuant

/-! ## Two contexts -/

/-- The renaming that counts the dummies of each space from the second context instead of the
first. -/
def IndexContext.recount (c c' : IndexContext) : Renaming := fun i =>
  if i.external then i else { i with number := i.number + c'.drawn i.space - c.drawn i.space }

/-- Whether an index is a dummy with a number that a context has not handed out. -/
def Index.DrawnAfter (c : IndexContext) (i : Index) : Prop :=
  i.external = false ∧ c.drawn i.space < i.number

/-- Whether two contexts have handed out equally many dummies of each space since two others. -/
def SameDraws (c c' b b' : IndexContext) : Prop :=
  ∀ s, c.drawn s ≤ b.drawn s ∧ b.drawn s + c'.drawn s = b'.drawn s + c.drawn s

theorem SameDraws.start (c c' : IndexContext) : SameDraws c c' c c' :=
  fun _ => ⟨Nat.le_refl _, Nat.add_comm _ _⟩

/-- Counting from another context is a relabelling of what was drawn. -/
theorem relabels_recount {c : IndexContext} (c' : IndexContext) {is : List Index}
    (h : ∀ i ∈ is, i.DrawnAfter c) : Relabels (c.recount c') is where
  external i hi he := by simp [(h i hi).1] at he
  space i _ := by
    unfold IndexContext.recount
    split <;> rfl
  kind i _ := by
    unfold IndexContext.recount
    split <;> rfl
  increasing i hi j hj hlt := by
    have hcmp : ∀ a b : Index, compare a b = (compare a.space b.space).then
        ((compare a.number b.number).then (compare a.external b.external)) := fun _ _ => rfl
    obtain ⟨hi, hni⟩ := h i hi
    obtain ⟨hj, hnj⟩ := h j hj
    simp only [hcmp, IndexContext.recount, hi, hj, Bool.false_eq_true, if_false] at hlt ⊢
    -- Within a space both numbers are shifted alike.
    cases hs : compare i.space j.space with
    | lt => rfl
    | gt => simp [hs] at hlt
    | eq =>
        have hspace : i.space = j.space := Std.LawfulEqOrd.eq_of_compare hs
        have hself : compare false false = Ordering.eq := rfl
        simp only [hs, hself, Ordering.eq_then, Ordering.then_eq, Nat.compare_eq_lt] at hlt ⊢
        rw [hspace] at hni ⊢
        omega

/-! ## Two runs -/

/-- Whether an index is a drawn one and another index is its counterpart. -/
def Index.MovesTo (c c' : IndexContext) (i i' : Index) : Prop :=
  i.DrawnAfter c ∧ i' = c.recount c' i

namespace Drawing

variable {α β γ δ : Type} {c c' : IndexContext}

/-- Whether two computations, run on contexts that have handed out equally many dummies, return
related values and hand out equally many. -/
def Relates (c c' : IndexContext) (R : α → β → Prop) (d : Drawing α) (d' : Drawing β) : Prop :=
  ∀ b b', SameDraws c c' b b' →
    R (d.run b).1 (d'.run b').1 ∧ SameDraws c c' (d.run b).2 (d'.run b').2

theorem relates_pure {R : α → β → Prop} {a : α} {a' : β} (h : R a a') :
    Relates c c' R (pure a) (pure a') :=
  fun _ _ hb => ⟨h, hb⟩

theorem relates_bind {R : α → β → Prop} {S : γ → δ → Prop} {d : Drawing α} {d' : Drawing β}
    {f : α → Drawing γ} {f' : β → Drawing δ} (hd : Relates c c' R d d')
    (hf : ∀ a a', R a a' → Relates c c' S (f a) (f' a')) :
    Relates c c' S (d >>= f) (d' >>= f') := by
  intro b b' hb
  obtain ⟨hvalue, hafter⟩ := hd b b' hb
  exact hf _ _ hvalue _ _ hafter

theorem relates_map {R : α → β → Prop} {S : γ → δ → Prop} {d : Drawing α} {d' : Drawing β}
    {f : α → γ} {f' : β → δ} (hd : Relates c c' R d d')
    (hf : ∀ a a', R a a' → S (f a) (f' a')) : Relates c c' S (f <$> d) (f' <$> d') := by
  intro b b' hb
  obtain ⟨hvalue, hafter⟩ := hd b b' hb
  exact ⟨hf _ _ hvalue, hafter⟩

theorem relates_mapM {R : β → γ → Prop} {f : α → Drawing β} {f' : α → Drawing γ} {l : List α}
    (h : ∀ a ∈ l, Relates c c' R (f a) (f' a)) :
    Relates c c' (List.Forall₂ R) (l.mapM f) (l.mapM f') := by
  induction l with
  | nil => exact relates_pure .nil
  | cons a l ih =>
      obtain ⟨ha, hl⟩ := List.forall_mem_cons.mp h
      rw [List.mapM_cons, List.mapM_cons]
      refine relates_bind ha fun b b' hb => relates_bind (ih hl) fun bs bs' hbs => ?_
      exact relates_pure (.cons hb hbs)

/-- A draw hands out counterparts. -/
theorem relates_draw (s : Space) : Relates c c' (Index.MovesTo c c') (draw s) (draw s) := by
  intro b b' hb
  have hs := hb s
  refine ⟨⟨⟨rfl, ?_⟩, ?_⟩, fun t => ?_⟩
  · show c.drawn s < b.drawn s + 1
    omega
  · have hnumber : b'.drawn s + 1 = b.drawn s + 1 + c'.drawn s - c.drawn s := by omega
    show Index.dummy s (b'.drawn s + 1) = c.recount c' (Index.dummy s (b.drawn s + 1))
    rw [hnumber]
    rfl
  · show c.drawn t ≤ (b.record s).drawn t ∧
      (b.record s).drawn t + c'.drawn t = (b'.record s).drawn t + c.drawn t
    by_cases hts : t = s
    · rw [hts, IndexContext.drawn_record_self, IndexContext.drawn_record_self]
      omega
    · rw [IndexContext.drawn_record_of_ne b hts, IndexContext.drawn_record_of_ne b' hts]
      exact hb t

theorem relates_drawEach (ss : List Space) :
    Relates c c' (List.Forall₂ (Index.MovesTo c c')) (drawEach ss) (drawEach ss) := by
  induction ss with
  | nil => exact relates_pure .nil
  | cons s ss ih =>
      refine relates_bind (relates_draw s) fun i i' hi => relates_bind ih fun is is' his => ?_
      exact relates_pure (.cons hi his)

end Drawing

/-- Members that are related to their images alone make a list that is related to its image. -/
theorem forall₂_image_iff {α β : Type} {P : α → Prop} {f : α → β} {l : List α} {l' : List β} :
    List.Forall₂ (fun a b => P a ∧ b = f a) l l' ↔ (∀ a ∈ l, P a) ∧ l' = l.map f := by
  have himage : List.Forall₂ (fun a b => b = f a) l l' ↔ l' = l.map f := by
    rw [← List.forall₂_eq_eq_eq, List.forall₂_map_right_iff]
    exact ⟨List.Forall₂.flip, List.Forall₂.flip⟩
  rw [List.forall₂_and_left, himage]

/-- What a run of draws hands out on another context is what it hands out on one, relabelled. -/
theorem Drawing.drawEach_recount (ss : List Space) (c c' : IndexContext) :
    Relabels (c.recount c') ((drawEach ss).run c).1 ∧
      ((drawEach ss).run c').1 = ((drawEach ss).run c).1.map (c.recount c') := by
  obtain ⟨hdrawn, heq⟩ := forall₂_image_iff.mp (relates_drawEach ss c c' (.start c c')).1
  exact ⟨relabels_recount c' hdrawn, heq⟩

/-! ## Expressions -/

namespace Expr

variable {c c' : IndexContext} {e e' d d' : Expr}

/-- Whether a tree is canonical and all its indices are drawn after a context. -/
def DrawnAfter (c : IndexContext) (e : Expr) : Prop :=
  e.IsCanonical ∧ ∀ i ∈ e.indices, i.DrawnAfter c

/-- Whether a tree is a drawn one and another tree is its counterpart. -/
def MovesTo (c c' : IndexContext) (e e' : Expr) : Prop :=
  e.DrawnAfter c ∧ e' = e.rename (c.recount c')

theorem movesTo_const (r : ℚ) : MovesTo c c' (const r) (const r) :=
  ⟨⟨.const r, List.forall_mem_nil _⟩, (rename_const _ r).symm⟩

theorem movesTo_ofTensor {t : Tensor} (h : ∀ i ∈ t.indices, i.DrawnAfter c) :
    MovesTo c c' (ofTensor t) (ofTensor (t.rename (c.recount c'))) :=
  ⟨⟨isCanonical_ofTensor t, fun i hi => h i (of_mem_indices_ofTensor hi)⟩,
    (rename_ofTensor _ t).symm⟩

theorem movesTo_cNumber (name : String) {upper upper' lower lower' : List Index}
    (symmetry : Symmetry) (hupper : List.Forall₂ (Index.MovesTo c c') upper upper')
    (hlower : List.Forall₂ (Index.MovesTo c c') lower lower') :
    MovesTo c c' (cNumber name upper lower symmetry) (cNumber name upper' lower' symmetry) := by
  obtain ⟨hu, rfl⟩ := forall₂_image_iff.mp hupper
  obtain ⟨hl, rfl⟩ := forall₂_image_iff.mp hlower
  exact movesTo_ofTensor (List.forall_mem_append.mpr ⟨hu, hl⟩)

theorem movesTo_elementary (l : Ladder) {i i' : Index} (h : i.MovesTo c c' i') :
    MovesTo c c' (tensor (.elementary l i)) (tensor (.elementary l i')) := by
  obtain ⟨hi, rfl⟩ := h
  have hplain : ∀ j, ofTensor (.elementary l j) = tensor (.elementary l j) := fun _ =>
    one_scaled _
  rw [← hplain, ← hplain]
  exact movesTo_ofTensor (List.forall_mem_singleton.mpr hi)

theorem MovesTo.adjoint (h : MovesTo c c' e e') : MovesTo c c' e.adjoint e'.adjoint := by
  obtain ⟨⟨_, hdrawn⟩, rfl⟩ := h
  exact ⟨⟨isCanonical_adjoint e, fun i hi => hdrawn i (of_mem_indices_adjoint hi)⟩,
    adjoint_rename _ e⟩

theorem movesTo_product {es es' : List Expr} (h : List.Forall₂ (MovesTo c c') es es') :
    MovesTo c c' (product es) (product es') := by
  obtain ⟨hes, rfl⟩ := forall₂_image_iff.mp h
  have hcan : ∀ e ∈ es, e.IsCanonical := fun e he => (hes e he).1
  refine ⟨⟨isCanonical_product hcan, fun i hi => ?_⟩, (rename_product _ es).symm⟩
  obtain ⟨e, he, hi⟩ := of_mem_indices_product hcan hi
  exact (hes e he).2 i hi

theorem movesTo_weightedSum {ts : List Term} (h : ∀ t ∈ ts, t.2.DrawnAfter c) :
    MovesTo c c' (weightedSum ts)
      (weightedSum (ts.map fun t => (t.1, t.2.rename (c.recount c')))) := by
  have hcan : ∀ t ∈ ts, t.2.IsCanonical := fun t ht => (h t ht).1
  refine ⟨⟨isCanonical_weightedSum hcan, fun i hi => ?_⟩, (rename_weightedSum _ ts).symm⟩
  obtain ⟨t, ht, hi⟩ := of_mem_indices_weightedSum hcan hi
  exact (h t ht).2 i hi

theorem movesTo_total {es es' : List Expr} (h : List.Forall₂ (MovesTo c c') es es') :
    MovesTo c c' (total es) (total es') := by
  obtain ⟨hes, rfl⟩ := forall₂_image_iff.mp h
  have hterms : ∀ t ∈ es.map fun e => ((1 : ℚ), e), t.2.DrawnAfter c := List.forall_mem_map.mpr hes
  have hsum : MovesTo c c' (total es) _ := movesTo_weightedSum hterms
  have hmap : total (es.map (rename (c.recount c'))) = weightedSum _ :=
    congrArg weightedSum List.map_map
  rw [List.map_map] at hsum
  rwa [hmap]

theorem MovesTo.smul (r : ℚ) (h : MovesTo c c' e e') : MovesTo c c' (r • e) (r • e') := by
  obtain ⟨he, rfl⟩ := h
  exact movesTo_weightedSum (List.forall_mem_singleton.mpr he)

theorem MovesTo.add (hd : MovesTo c c' d d') (he : MovesTo c c' e e') :
    MovesTo c c' (d + e) (d' + e') :=
  movesTo_total (.cons hd (.cons he .nil))

theorem MovesTo.mul (hd : MovesTo c c' d d') (he : MovesTo c c' e e') :
    MovesTo c c' (d * e) (d' * e') :=
  movesTo_product (.cons hd (.cons he .nil))

end Expr

/-! ## Builders -/

namespace Builder

open Drawing SecondQuant.Expr

variable {c c' : IndexContext}

theorem movesTo_normalProduct (name : String) (s : Statistics) {cre cre' ann ann' : List Index}
    (hcre : List.Forall₂ (Index.MovesTo c c') cre cre')
    (hann : List.Forall₂ (Index.MovesTo c c') ann ann') :
    MovesTo c c' (normalProduct name s cre ann) (normalProduct name s cre' ann') := by
  have hoperators : ∀ (l : Ladder) {is is' : List Index},
      List.Forall₂ (Index.MovesTo c c') is is' →
      List.Forall₂ (MovesTo c c') (is.map fun i => tensor (.elementary l i))
        (is'.map fun i => tensor (.elementary l i)) := by
    intro l is is' h
    rw [List.forall₂_map_left_iff, List.forall₂_map_right_iff]
    exact h.imp fun _ _ => movesTo_elementary l
  rw [normalProduct, normalProduct, ← hcre.length_eq, ← hann.length_eq]
  refine movesTo_product (List.rel_append (List.rel_append ?_ ?_) ?_)
  · exact .cons (movesTo_const _) (.cons (movesTo_cNumber name _ hcre hann) .nil)
  · exact hoperators _ hcre
  · exact hoperators _ (List.rel_reverse hann)

theorem relates_normalOrdered (name : String) (s : Statistics) (cre ann : List Space) :
    Relates c c' (MovesTo c c') (normalOrdered name s cre ann) (normalOrdered name s cre ann) :=
  relates_bind (relates_drawEach cre) fun _ _ hcre =>
    relates_bind (relates_drawEach ann) fun _ _ hann =>
      relates_pure (movesTo_normalProduct name s hcre hann)

theorem relates_upTo {build : Nat → Drawing Expr}
    (h : ∀ k, Relates c c' (MovesTo c c') (build k) (build k)) (n : Nat) :
    Relates c c' (MovesTo c c') (upTo build n) (upTo build n) :=
  relates_bind (relates_mapM fun k _ => h (k + 1)) fun _ _ hes =>
    relates_pure (movesTo_total hes)

theorem relates_particleHole (name : String) (n : Int) :
    Relates c c' (MovesTo c c') (particleHole name n) (particleHole name n) := by
  unfold particleHole
  split
  · exact relates_pure (movesTo_const 1)
  · refine relates_bind (relates_normalOrdered _ _ _ _) fun e e' he => relates_pure ?_
    split
    · exact he
    · exact he.adjoint

theorem relates_hamiltonian (n : Nat) :
    Relates c c' (MovesTo c c') (hamiltonian n) (hamiltonian n) := by
  cases n with
  | zero => exact relates_pure (movesTo_const 0)
  | succ n => exact relates_normalOrdered _ _ _ _

theorem relates_photonHamiltonian (n : Nat) :
    Relates c c' (MovesTo c c') (photonHamiltonian n) (photonHamiltonian n) := by
  cases n with
  | zero => exact relates_pure (movesTo_const 0)
  | succ n => exact relates_normalOrdered _ _ _ _

section Coupling

variable {p p' q q' x x' : Index} (hp : p.MovesTo c c' p') (hq : q.MovesTo c c' q')
  (hx : x.MovesTo c c' x')

include hp hq hx

theorem movesTo_emission : MovesTo c c' (emission p q x) (emission p' q' x') :=
  movesTo_product <| .cons (movesTo_cNumber "d" _ (.cons hp (.cons hx .nil)) (.cons hq .nil)) <|
    .cons (movesTo_elementary _ hp) <| .cons (movesTo_elementary _ hq) <|
      .cons (movesTo_elementary _ hx) .nil

theorem movesTo_absorption : MovesTo c c' (absorption p q x) (absorption p' q' x') :=
  movesTo_product <| .cons (movesTo_cNumber "d" _ (.cons hp .nil) (.cons hq (.cons hx .nil))) <|
    .cons (movesTo_elementary _ hp) <| .cons (movesTo_elementary _ hq) <|
      .cons (movesTo_elementary _ hx) .nil

end Coupling

theorem relates_electronPhotonCoupling :
    Relates c c' (MovesTo c c') electronPhotonCoupling electronPhotonCoupling :=
  relates_bind (relates_draw _) fun _ _ hp => relates_bind (relates_draw _) fun _ _ hq =>
    relates_bind (relates_draw _) fun _ _ hx => relates_bind (relates_draw _) fun _ _ hp' =>
      relates_bind (relates_draw _) fun _ _ hq' => relates_bind (relates_draw _) fun _ _ hx' =>
        relates_pure ((movesTo_emission hp hq hx).add (movesTo_absorption hp' hq' hx'))

theorem relates_coupledHamiltonian :
    Relates c c' (MovesTo c c') coupledHamiltonian coupledHamiltonian :=
  relates_bind (relates_upTo relates_hamiltonian 2) fun _ _ helectrons =>
    relates_bind (relates_photonHamiltonian 1) fun _ _ hphotons =>
      relates_bind relates_electronPhotonCoupling fun _ _ hcoupling =>
        relates_pure (movesTo_total (.cons helectrons (.cons hphotons (.cons hcoupling .nil))))

/-- The programs that build an expression on one context: the builders, and adjoints, multiples,
sums and products of what such programs build one after the other. -/
inductive Builds : Drawing Expr → Prop
  | normalOrdered (name : String) (s : Statistics) (cre ann : List Space) :
      Builds (normalOrdered name s cre ann)
  | excitation (n : Int) : Builds (excitation n)
  | cluster (n : Int) : Builds (cluster n)
  | clusterAdjoint (n : Int) : Builds (clusterAdjoint n)
  | clusterUpTo (n : Int) : Builds (clusterUpTo n)
  | hamiltonian (n : Nat) : Builds (hamiltonian n)
  | hamiltonianUpTo (n : Nat) : Builds (hamiltonianUpTo n)
  | electronicHamiltonian : Builds electronicHamiltonian
  | photonHamiltonian (n : Nat) : Builds (photonHamiltonian n)
  | photonHamiltonianUpTo (n : Nat) : Builds (photonHamiltonianUpTo n)
  | electronPhotonCoupling : Builds electronPhotonCoupling
  | coupledHamiltonian : Builds coupledHamiltonian
  | adjoint {d : Drawing Expr} : Builds d → Builds (Expr.adjoint <$> d)
  | smul (r : ℚ) {d : Drawing Expr} : Builds d → Builds ((r • ·) <$> d)
  | add {d d' : Drawing Expr} : Builds d → Builds d' →
      Builds (d >>= fun a => d' >>= fun b => pure (a + b))
  | mul {d d' : Drawing Expr} : Builds d → Builds d' →
      Builds (d >>= fun a => d' >>= fun b => pure (a * b))

/-- Two runs of a program build counterparts. -/
theorem Builds.relates {d : Drawing Expr} (h : Builds d) :
    Relates c c' (MovesTo c c') d d := by
  induction h with
  | normalOrdered name s cre ann => exact relates_normalOrdered name s cre ann
  | excitation n => exact relates_particleHole "A" n
  | cluster n => exact relates_particleHole "t" n
  | clusterAdjoint n => exact relates_map (relates_particleHole "t" n) fun _ _ he => he.adjoint
  | clusterUpTo n => exact relates_upTo (fun k => relates_particleHole "t" k) n.toNat
  | hamiltonian n => exact relates_hamiltonian n
  | hamiltonianUpTo n => exact relates_upTo relates_hamiltonian n
  | electronicHamiltonian => exact relates_upTo relates_hamiltonian 2
  | photonHamiltonian n => exact relates_photonHamiltonian n
  | photonHamiltonianUpTo n => exact relates_upTo relates_photonHamiltonian n
  | electronPhotonCoupling => exact relates_electronPhotonCoupling
  | coupledHamiltonian => exact relates_coupledHamiltonian
  | adjoint _ ih => exact relates_map ih fun _ _ he => he.adjoint
  | smul r _ ih => exact relates_map ih fun _ _ he => he.smul r
  | add _ _ ihd ihe =>
      exact relates_bind ihd fun _ _ ha => relates_bind ihe fun _ _ hb => relates_pure (ha.add hb)
  | mul _ _ ihd ihe =>
      exact relates_bind ihd fun _ _ ha => relates_bind ihe fun _ _ hb => relates_pure (ha.mul hb)

/-- What a program builds on another context is a relabelling of what it builds on one. -/
theorem Builds.recount {d : Drawing Expr} (h : Builds d) (c c' : IndexContext) :
    (d.run c).1.IsCanonical ∧ Relabels (c.recount c') (d.run c).1.indices ∧
      (d.run c').1 = (d.run c).1.rename (c.recount c') := by
  have hrelates : Relates c c' (MovesTo c c') d d := h.relates
  obtain ⟨⟨⟨hcan, hdrawn⟩, heq⟩, _⟩ := hrelates c c' (.start c c')
  exact ⟨hcan, relabels_recount c' hdrawn, heq⟩

end Builder

end SecondQuant
