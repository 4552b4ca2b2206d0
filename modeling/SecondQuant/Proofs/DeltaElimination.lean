import SecondQuant.Proofs.Substitution
import SecondQuant.Proofs.WordContraction

/-!
# Eliminating deltas is a substitution

The deltas of a term are eliminated one at a time, and after each of them the term is renamed and
brought into canonical form, so later deltas are seen with other indices and in another order.  All
in all, though, some deltas of the original term are dropped and one substitution is applied to the
rest: it joins exactly the indices that chains of dropped deltas link, leaves external indices alone
and never widens a space.

* `Space.Within` — a space that lies in another one.
* `IsDeltaSubstitution` — what a set of deltas and a substitution have to do with each other.
* `IsDeltaSubstitution.step`, `exists_substitution_eliminate` — one elimination, and all of them.
* `reduceDeltas_substitution` — the reduction of a term.
-/

namespace SecondQuant

/-! ## Spaces -/

namespace Space

/-- Whether the states of a space lie in another one. -/
def Within (s t : Space) : Prop :=
  s.meet? t = some s

theorem Within.refl (s : Space) : s.Within s :=
  meet?_self s

theorem Within.trans {s t u : Space} (hst : s.Within t) (htu : t.Within u) : s.Within u := by
  unfold Within at hst htu ⊢
  cases s <;> cases t <;> cases u <;> simp_all [meet?]

end Space

/-! ## One delta -/

/-- An elimination drops a delta between equal indices, or puts one index of a delta in the place of
the other one: that one is a dummy, and its space contains the one of the index that stays. -/
theorem Elimination.ofIndices?_eq_some {p q : Index} {x : Elimination}
    (h : ofIndices? p q = some x) :
    (x = trivial ∧ p = q) ∨
    ∃ old new, x = replace old new ∧ (old = q ∧ new = p ∨ old = p ∧ new = q) ∧
      old.external = false ∧ new.space.Within old.space := by
  unfold ofIndices? at h
  split at h
  · next hpq => exact .inl ⟨(Option.some.inj h).symm, hpq⟩
  · right
    split at h
    · cases h
    · next s hs =>
        split at h
        · next hq =>
            simp only [Bool.and_eq_true, Bool.not_eq_true', beq_iff_eq] at hq
            refine ⟨q, p, (Option.some.inj h).symm, .inl ⟨rfl, rfl⟩, hq.1, ?_⟩
            rw [Space.Within, hs, hq.2]
        · split at h
          · next hp =>
              simp only [Bool.and_eq_true, Bool.not_eq_true', beq_iff_eq] at hp
              refine ⟨p, q, (Option.some.inj h).symm, .inr ⟨rfl, rfl⟩, hp.1, ?_⟩
              rw [Space.Within, Space.meet?_comm, hs, hp.2]
          · cases h

namespace Elimination

variable {p q : Index} {x : Elimination}

/-- Two indices become equal exactly when they are equal already or both are indices of the
delta. -/
theorem toRenaming_eq_iff (h : ofIndices? p q = some x) {i j : Index} :
    x.toRenaming i = x.toRenaming j ↔ i = j ∨ ((i = p ∨ i = q) ∧ (j = p ∨ j = q)) := by
  rcases ofIndices?_eq_some h with ⟨rfl, rfl⟩ | ⟨old, new, rfl, hpq, _, _⟩
  · show i = j ↔ _
    constructor
    · exact .inl
    · rintro (hij | ⟨hi, hj⟩)
      · exact hij
      · rw [hi.elim id id, hj.elim id id]
  · show Renaming.replace old new i = Renaming.replace old new j ↔ _
    have hpair : ∀ k, (k = p ∨ k = q) ↔ (k = old ∨ k = new) := by
      intro k
      rcases hpq with ⟨rfl, rfl⟩ | ⟨rfl, rfl⟩
      · exact or_comm
      · rfl
    simp only [hpair, Renaming.replace]
    by_cases hi : i = old <;> by_cases hj : j = old <;> simp [hi, hj]
    · rw [or_iff_right (Ne.symm hj)]
      exact eq_comm
    · rintro rfl rfl
      rfl

/-- An external index is never replaced. -/
theorem toRenaming_external (h : ofIndices? p q = some x) {i : Index} (hi : i.external = true) :
    x.toRenaming i = i := by
  rcases ofIndices?_eq_some h with ⟨rfl, _⟩ | ⟨old, new, rfl, _, hold, _⟩
  · rfl
  · refine if_neg ?_
    rintro rfl
    simp [hi] at hold

/-- An index is replaced by one of its own space or of a narrower one. -/
theorem within_toRenaming (h : ofIndices? p q = some x) (i : Index) :
    (x.toRenaming i).space.Within i.space := by
  rcases ofIndices?_eq_some h with ⟨rfl, _⟩ | ⟨old, new, rfl, _, _, hnew⟩
  · exact Space.Within.refl i.space
  · show (Renaming.replace old new i).space.Within i.space
    unfold Renaming.replace
    by_cases hi : i = old
    · rw [if_pos hi, hi]
      exact hnew
    · rw [if_neg hi]
      exact Space.Within.refl i.space

end Elimination

namespace Tensor

/-- A delta is a c-number of that name with one index in each list. -/
theorem delta?_eq_some {t : Tensor} {p q : Index} :
    t.delta? = some (p, q) ↔
      t.name = deltaName ∧ t.upper = [p] ∧ t.lower = [q] ∧ t.ladder = none := by
  unfold delta?
  constructor
  · intro h
    split at h
    · next hu hl =>
        split at h
        · next hd =>
            obtain ⟨rfl, rfl⟩ := Prod.mk.inj (Option.some.inj h)
            exact ⟨hd.1, hu, hl, hd.2⟩
        · cases h
    · cases h
  · rintro ⟨hn, hu, hl, hd⟩
    rw [hu, hl]
    exact if_pos ⟨hn, hd⟩

theorem delta?_rename (r : Renaming) (t : Tensor) :
    (t.rename r).delta? = t.delta?.map fun d => (r d.1, r d.2) := by
  obtain ⟨name, upper, lower, _, ladder⟩ := t
  match upper, lower with
  | [], _ => rfl
  | [p], [] => rfl
  | [p], [q] =>
      show (if name = deltaName ∧ ladder = none then some (r p, r q) else none) =
        (if name = deltaName ∧ ladder = none then some (p, q) else none).map _
      split
      · rfl
      · rfl
  | [_], _ :: _ :: _ => rfl
  | _ :: _ :: _, _ => rfl

/-- A tensor with one index in each list is its own canonical form. -/
theorem canonical?_of_delta {t u : Tensor} {s : Sign} {p q : Index}
    (h : t.canonical? = some (s, u)) (hu : u.delta? = some (p, q)) : s = .plus ∧ t = u := by
  obtain ⟨_, hup, hlo, _⟩ := delta?_eq_some.mp hu
  rcases canonical?_eq_some h with ⟨rfl, rfl⟩ | ⟨hs, rfl⟩
  · exact ⟨rfl, rfl⟩
  · have hup' : t.upper = [p] := List.perm_singleton.mp (hup ▸ (sortBy_perm compare t.upper).symm)
    have hlo' : t.lower = [q] := List.perm_singleton.mp (hlo ▸ (sortBy_perm compare t.lower).symm)
    constructor
    · rcases hs with rfl | rfl
      · rfl
      · rw [sign, hup', hlo']
        rfl
    · have hsu : sortBy compare t.upper = t.upper := by rw [hup']; rfl
      have hsl : sortBy compare t.lower = t.lower := by rw [hlo']; rfl
      rw [sorted, hsu, hsl]

end Tensor

/-! ## The delta of a step -/

namespace Word

/-- The letters of a product stand in the order of its tensors. -/
theorem canonical?_split {v u₁ u₂ : Word} {t : Tensor} {s : Sign}
    (h : v.canonical? = some (s, u₁ ++ t :: u₂)) :
    ∃ v₁ d v₂ r r', v = v₁ ++ d :: v₂ ∧ d.canonical? = some (r, t) ∧
      canonical? (v₁ ++ v₂) = some (r', u₁ ++ u₂) ∧ s = r * r' := by
  induction v generalizing s u₁ with
  | nil => simpa using canonical?_nil h
  | cons c v ih =>
      obtain ⟨r, x, r', w, hc, hv, rfl, hu⟩ := canonical?_cons h
      cases u₁ with
      | nil =>
          obtain ⟨rfl, rfl⟩ := List.cons.inj hu
          exact ⟨[], c, v, r, r', rfl, hc, hv, rfl⟩
      | cons c' u₁ =>
          obtain ⟨rfl, rfl⟩ := List.cons.inj hu
          obtain ⟨v₁, d, v₂, k, k', rfl, hd, hrest, rfl⟩ := ih hv
          refine ⟨c :: v₁, d, v₂, k, r * k', rfl, hd, ?_, Sign.mul_left_comm r k k'⟩
          show canonical? (c :: (v₁ ++ v₂)) = _
          rw [canonical?, hc, hrest]
          rfl

/-- Taking the same c-number out of two words with one normal form leaves two words with one normal
form. -/
theorem normal_cancel {u₁ u₂ v₁ v₂ : Word} {t : Tensor} (ht : t.isOperator = false)
    (h : normal (u₁ ++ t :: u₂) = normal (v₁ ++ t :: v₂)) :
    normal (u₁ ++ u₂) = normal (v₁ ++ v₂) := by
  have hperm : (u₁ ++ t :: u₂).Perm (v₁ ++ t :: v₂) :=
    (normal_perm _).symm.trans (h ▸ normal_perm _)
  have hcancel : (u₁ ++ u₂).Perm (v₁ ++ v₂) :=
    (List.perm_middle.symm.trans (hperm.trans List.perm_middle)).cons_inv
  refine normal_congr (hcancel.filter _) ?_
  have hdrop : ∀ w₁ w₂ : Word, operators (w₁ ++ t :: w₂) = operators (w₁ ++ w₂) := by
    intro w₁ w₂
    simp [operators, ht]
  rw [← hdrop, ← operators_normal, h, operators_normal, hdrop]

theorem factors_scaled (s : Sign) (w : Word) :
    (Expr.scaled s.toRat w.monomial).factors = signFactors s ++ w.map Expr.tensor := by
  cases s with
  | plus => exact (congrArg Expr.factors (Expr.one_scaled _)).trans w.factors_monomial
  | minus =>
      match w with
      | [] =>
          show (Expr.scaled (-1) Expr.one).factors = [Expr.const (-1)]
          rw [Expr.scaled_one]
          decide
      | [_] => rfl
      | _ :: _ :: _ => rfl

end Word

namespace Expr

theorem deltaStep?_eq_some {es : List Expr} {x : DeltaStep} (h : deltaStep? es = some x) :
    ∃ pre post, es = pre ++ x.factor :: post ∧ x.others = pre ++ post ∧
      x.factor.elimination? = some x.elimination := by
  induction es generalizing x with
  | nil => cases h
  | cons e es ih =>
      rw [deltaStep?] at h
      split at h
      · next y he =>
          obtain rfl := Option.some.inj h
          exact ⟨[], es, rfl, rfl, he⟩
      · obtain ⟨y, hy, rfl⟩ := Option.map_eq_some_iff.mp h
        obtain ⟨pre, post, hes, hothers, hfactor⟩ := ih hy
        refine ⟨e :: pre, post, ?_, ?_, hfactor⟩
        · rw [hes, List.cons_append]
        · rw [hothers, List.cons_append]

theorem elimination?_eq_some {e : Expr} {x : Elimination} (h : e.elimination? = some x) :
    ∃ t p q, e = tensor t ∧ t.delta? = some (p, q) ∧ Elimination.ofIndices? p q = some x := by
  cases e with
  | tensor t =>
      obtain ⟨⟨p, q⟩, hd, hx⟩ := Option.bind_eq_some_iff.mp h
      exact ⟨t, p, q, rfl, hd, hx⟩
  | _ => cases h

theorem map_tensor_eq_append {w : Word} {t : Tensor} {pre post : List Expr}
    (h : w.map tensor = pre ++ tensor t :: post) :
    ∃ w₁ w₂, w = w₁ ++ t :: w₂ ∧ pre = w₁.map tensor ∧ post = w₂.map tensor := by
  obtain ⟨w₁, w', rfl, rfl, hw'⟩ := List.map_eq_append_iff.mp h
  obtain ⟨t', w₂, rfl, ht, rfl⟩ := List.map_eq_cons_iff.mp hw'
  obtain rfl := tensor.inj ht
  exact ⟨w₁, w₂, rfl, rfl, rfl⟩

/-- A tensor among signed letters is one of the letters. -/
theorem signFactors_append_eq_append {s : Sign} {w : Word} {t : Tensor} {pre post : List Expr}
    (h : signFactors s ++ w.map tensor = pre ++ tensor t :: post) :
    ∃ w₁ w₂, w = w₁ ++ t :: w₂ ∧ pre = signFactors s ++ w₁.map tensor ∧
      post = w₂.map tensor := by
  cases s with
  | plus => exact map_tensor_eq_append h
  | minus =>
      cases pre with
      | nil => cases h
      | cons e pre =>
          have hcons : const (-1) :: w.map tensor = e :: (pre ++ tensor t :: post) := h
          obtain ⟨rfl, htail⟩ := List.cons.inj hcons
          obtain ⟨w₁, w₂, hw, rfl, hpost⟩ := map_tensor_eq_append htail
          exact ⟨w₁, w₂, hw, rfl, hpost⟩

/-- The product of a sign and letters is the tree of every product with that sign and those letters,
whatever their order, as long as their normal form is the same. -/
theorem product_signed {v n u : Word} {s : Sign} (h : v.canonical? = some (s, u))
    (hn : n.normal = u.normal) : product (signFactors s ++ n.map tensor) = v.tree := by
  have hgen := OperatorAlgebra.lawful_gen.commute
  have hletters : ∀ t ∈ n, t.IsCanonical := by
    intro t ht
    have hu : t ∈ u.normal := hn ▸ (Word.normal_perm n).mem_iff.mpr ht
    exact Word.isCanonical_of_canonical? h t ((Word.normal_perm u).mem_iff.mp hu)
  have hfactors : ∀ e ∈ signFactors s ++ n.map tensor, e.IsCanonical := by
    refine List.forall_mem_append.mpr ⟨?_, ?_⟩
    · cases s with
      | plus => exact List.forall_mem_nil _
      | minus => exact List.forall_mem_singleton.mpr (.const (-1))
    · exact List.forall_mem_map.mpr fun t ht => .tensor (hletters t ht)
  refine eq_of_denote_eq (isCanonical_product hfactors) (Word.isCanonical_tree v) ?_
  rw [denote_product, List.map_append, List.prod_append, prod_denote_signFactors,
    prod_denote_tensors, smul_mul_assoc, one_mul, Word.denote_tree, Word.eval_gen_eq v, h,
    ← Word.eval_normal hgen, hn, Word.eval_normal hgen]
  rfl

/-- The delta that a step finds in the tree of a product is one of the tensors, and the other
factors make the tree of the other tensors. -/
theorem deltaStep?_tree {v : Word} {x : DeltaStep} (h : deltaStep? v.tree.factors = some x) :
    ∃ v₁ d v₂ p q, v = v₁ ++ d :: v₂ ∧ d.delta? = some (p, q) ∧
      Elimination.ofIndices? p q = some x.elimination ∧
      product x.others = Word.tree (v₁ ++ v₂) := by
  rw [Word.tree] at h
  cases hv : v.canonical? with
  | none =>
      rw [hv] at h
      cases h
  | some y =>
      obtain ⟨s, u⟩ := y
      simp only [hv, Word.factors_scaled] at h
      obtain ⟨pre, post, hfactors, hothers, hfactor⟩ := deltaStep?_eq_some h
      obtain ⟨t, p, q, ht, hd, hx⟩ := elimination?_eq_some hfactor
      rw [ht] at hfactors
      obtain ⟨n₁, n₂, hn, rfl, rfl⟩ := signFactors_append_eq_append hfactors
      have hmem : t ∈ u := (Word.normal_perm u).mem_iff.mp (by simp [hn])
      obtain ⟨u₁, u₂, rfl⟩ := List.append_of_mem hmem
      obtain ⟨v₁, d, v₂, r, r', rfl, hdt, hrest, rfl⟩ := Word.canonical?_split hv
      obtain ⟨rfl, rfl⟩ := Tensor.canonical?_of_delta hdt hd
      have hop : d.isOperator = false := by
        rw [Tensor.isOperator, (Tensor.delta?_eq_some.mp hd).2.2.2]
        rfl
      have hnormal : Word.normal (n₁ ++ n₂) = Word.normal (u₁ ++ u₂) :=
        Word.normal_cancel hop (by rw [← hn, Word.normal_normal])
      refine ⟨v₁, d, v₂, p, q, rfl, hd, hx, ?_⟩
      rw [hothers, List.append_assoc, ← List.map_append, Sign.plus_mul]
      exact product_signed hrest hnormal

end Expr

/-! ## Dropped deltas and their substitution -/

/-- Whether two indices are the upper and the lower index of a delta in a list. -/
def Linked (D : List Tensor) (i j : Index) : Prop :=
  ∃ d ∈ D, d.upper = [i] ∧ d.lower = [j]

/-- Whether a word falls into deltas to be dropped and a rest, and a substitution joins exactly the
indices that chains of those deltas link, without touching external indices or widening a space. -/
structure IsDeltaSubstitution (w : Word) (D rest : List Tensor) (s : Renaming) : Prop where
  letters : w.Perm (D ++ rest)
  /-- The rest stands in the order of the word. -/
  order : rest.Sublist w
  deltas : ∀ d ∈ D, d.name = "δ" ∧ d.ladder = none ∧ d.upper.length = 1 ∧ d.lower.length = 1
  external : ∀ i, i.external = true → s i = i
  narrows : ∀ i, (s i).space.Within i.space
  joins : ∀ i j, s i = s j ↔ Relation.EqvGen (Linked D) i j

/-- Indices that related ones link have the same image, if related ones do. -/
theorem eqvGen_image {r : Index → Index → Prop} {f : Renaming} (h : ∀ i j, r i j → f i = f j)
    {i j : Index} (hij : Relation.EqvGen r i j) : f i = f j := by
  induction hij with
  | rel i j hr => exact h i j hr
  | refl i => rfl
  | symm i j _ ih => exact ih.symm
  | trans i j k _ _ ih₁ ih₂ => exact ih₁.trans ih₂

namespace IsDeltaSubstitution

/-- Nothing is dropped and nothing is renamed. -/
theorem start (w : Word) : IsDeltaSubstitution w [] w id where
  letters := List.Perm.refl w
  order := List.Sublist.refl w
  deltas := List.forall_mem_nil _
  external _ _ := rfl
  narrows i := Space.Within.refl i.space
  joins i j := by
    constructor
    · rintro rfl
      exact .refl i
    · refine eqvGen_image (f := id) ?_
      rintro a b ⟨_, hd, _⟩
      cases hd

/-- One more link joins the classes of its two indices and no others. -/
theorem joins_cons {D : List Tensor} {d : Tensor} {s : Renaming} {p q : Index} {x : Elimination}
    (h : ∀ i j, s i = s j ↔ Relation.EqvGen (Linked D) i j) (hp : d.upper = [p])
    (hq : d.lower = [q]) (hx : Elimination.ofIndices? (s p) (s q) = some x) (i j : Index) :
    x.toRenaming (s i) = x.toRenaming (s j) ↔ Relation.EqvGen (Linked (d :: D)) i j := by
  constructor
  · intro hij
    have hold : ∀ {k l}, s k = s l → Relation.EqvGen (Linked (d :: D)) k l := by
      intro k l hkl
      refine ((h k l).mp hkl).mono ?_
      rintro a b ⟨c, hc, hab⟩
      exact ⟨c, List.mem_cons_of_mem d hc, hab⟩
    have hlink : Relation.EqvGen (Linked (d :: D)) p q :=
      .rel _ _ ⟨d, List.mem_cons_self, hp, hq⟩
    rcases (Elimination.toRenaming_eq_iff hx).mp hij with heq | ⟨hi, hj⟩
    · exact hold heq
    · have hto : ∀ k, (s k = s p ∨ s k = s q) → Relation.EqvGen (Linked (d :: D)) k p := by
        intro k hk
        rcases hk with hk | hk
        · exact hold hk
        · exact (hold hk).trans _ _ _ (hlink.symm _ _)
      exact (hto i hi).trans _ _ _ ((hto j hj).symm _ _)
  · refine eqvGen_image (f := x.toRenaming ∘ s) ?_
    rintro a b ⟨c, hc, ha, hb⟩
    refine (Elimination.toRenaming_eq_iff hx).mpr ?_
    rcases List.mem_cons.mp hc with rfl | hc
    · obtain rfl := List.singleton_inj.mp (ha.symm.trans hp)
      obtain rfl := List.singleton_inj.mp (hb.symm.trans hq)
      exact .inr ⟨.inl rfl, .inr rfl⟩
    · exact .inl ((h a b).mpr (.rel _ _ ⟨c, hc, ha, hb⟩))

/-- Dropping one more delta, which is seen with the indices that the substitution has given it. -/
theorem step {w : Word} {D r₁ r₂ : List Tensor} {d : Tensor} {s : Renaming} {p q : Index}
    {x : Elimination} (h : IsDeltaSubstitution w D (r₁ ++ d :: r₂) s)
    (hd : (d.rename s).delta? = some (p, q)) (hx : Elimination.ofIndices? p q = some x) :
    IsDeltaSubstitution w (d :: D) (r₁ ++ r₂) (x.toRenaming ∘ s) := by
  obtain ⟨hname, hupper, hlower, hladder⟩ := Tensor.delta?_eq_some.mp hd
  obtain ⟨p₀, hp₀, rfl⟩ := List.map_eq_singleton_iff.mp hupper
  obtain ⟨q₀, hq₀, rfl⟩ := List.map_eq_singleton_iff.mp hlower
  have hmove : (D ++ (r₁ ++ d :: r₂)).Perm (d :: D ++ (r₁ ++ r₂)) := by
    rw [← List.append_assoc, List.cons_append, ← List.append_assoc]
    exact List.perm_middle
  exact {
    letters := h.letters.trans hmove
    order := ((List.sublist_cons_self d r₂).append_left r₁).trans h.order
    deltas := List.forall_mem_cons.mpr ⟨⟨hname, hladder, by simp [hp₀], by simp [hq₀]⟩, h.deltas⟩
    external := fun i hi => by
      show x.toRenaming (s i) = i
      rw [h.external i hi, Elimination.toRenaming_external hx hi]
    narrows := fun i => (Elimination.within_toRenaming hx (s i)).trans (h.narrows i)
    joins := joins_cons h.joins hp₀ hq₀ hx }

end IsDeltaSubstitution

/-- However many deltas are eliminated in a term, what is left is a substitution in the rest of the
term. -/
theorem exists_substitution_eliminate {w : Word} (fuel : Nat) {D rest : List Tensor} {s : Renaming}
    (h : IsDeltaSubstitution w D rest s) :
    ∃ D' rest' s', IsDeltaSubstitution w D' rest' s' ∧
      Expr.eliminate fuel ((Expr.prod (rest.map Expr.tensor)).rename s) =
        (Expr.prod (rest'.map Expr.tensor)).rename s' := by
  -- Each step drops one delta of the rest and composes its replacement with the substitution.
  induction fuel generalizing D rest s with
  | zero => exact ⟨D, rest, s, h, rfl⟩
  | succ fuel ih =>
      rw [Expr.eliminate]
      split
      · exact ⟨D, rest, s, h, rfl⟩
      · next x hx =>
          rw [Expr.rename_prod] at hx
          obtain ⟨v₁, d', v₂, p, q, hv, hd, hofx, hothers⟩ := Expr.deltaStep?_tree hx
          obtain ⟨r₁, r', rfl, rfl, hr'⟩ := List.map_eq_append_iff.mp hv
          obtain ⟨d, r₂, rfl, rfl, rfl⟩ := List.map_eq_cons_iff.mp hr'
          have hresult : x.result =
              (Expr.prod ((r₁ ++ r₂).map Expr.tensor)).rename (x.elimination.toRenaming ∘ s) := by
            rw [Expr.DeltaStep.result, hothers, ← List.map_append, ← Expr.rename_prod,
              Expr.rename_rename]
          rw [hresult]
          exact ih (h.step hd hofx)

/-! ## The reduction of a term -/

namespace Expr

theorem weightedSum_one {e : Expr} (h : e.IsCanonical) : weightedSum [(1, e)] = e := by
  refine eq_of_denote_eq (isCanonical_weightedSum (List.forall_mem_singleton.mpr h)) h ?_
  simp [denote_weightedSum]

theorem reduceDeltas_monomial {w : Word} (hw : w.IsCanonical) :
    w.monomial.reduceDeltas = w.monomial.reduceTerm := by
  rw [reduceDeltas, Word.terms_monomial]
  exact weightedSum_one (isCanonical_eliminate _ (isMonomial_monomial hw).isCanonical)

theorem monomial_eq_rename {w : Word} (hw : w.IsCanonical) :
    w.monomial = (prod (w.map tensor)).rename id := by
  rw [rename_id]
  refine eq_of_denote_eq (isMonomial_monomial hw).isCanonical (isCanonical_canonical _) ?_
  rw [denote_canonical, denote, denote, Word.eval_monomial, eval_prod, List.map_map]
  rfl

end Expr

/-- **Eliminating deltas is a substitution.**  The factors of a term fall into deltas that are
dropped and a rest, and the reduced term is the canonical form of the rest under one substitution.
That substitution joins exactly the indices that chains of dropped deltas link; it leaves external
indices alone and replaces an index by one of its own space or of a narrower one. -/
theorem reduceDeltas_substitution {e : Expr} (he : e.IsCanonical) {t : Term} (ht : t ∈ e.terms) :
    ∃ w D rest s, t.2.factors = w.map Expr.tensor ∧ IsDeltaSubstitution w D rest s ∧
      t.2.reduceDeltas = (Expr.prod (rest.map Expr.tensor)).rename s := by
  obtain ⟨w, hw, hm⟩ := Expr.isMonomial_iff.mp (Expr.isMonomial_of_mem_terms he ht)
  obtain ⟨D, rest, s, hs, heq⟩ :=
    exists_substitution_eliminate w.monomial.eliminationBound (IsDeltaSubstitution.start w)
  refine ⟨w, D, rest, s, ?_, hs, ?_⟩
  · rw [hm, w.factors_monomial]
  · rw [hm, Expr.reduceDeltas_monomial hw, Expr.reduceTerm, ← heq, ← Expr.monomial_eq_rename hw]

/-- An antisymmetric tensor with four deltas: two form a cycle, one of these is repeated, and the
fourth one leads to an external index. -/
def deltaCycle : Expr :=
  .prod [.tensor (.cNumber "v" [.dummy .general 1, .dummy .general 2] [] .antisymmetric),
    .tensor (.cNumber "δ" [.dummy .general 1] [.dummy .general 3] .plain),
    .tensor (.cNumber "δ" [.dummy .general 1] [.dummy .general 3] .plain),
    .tensor (.cNumber "δ" [.dummy .general 3] [.dummy .general 1] .plain),
    .tensor (.cNumber "δ" [.dummy .general 3] [.free .general 4] .plain)]

/-- What is left of it. -/
def deltaCycleReduced : Expr :=
  .prod [.const (-1),
    .tensor (.cNumber "v" [.dummy .general 2, .free .general 4] [] .antisymmetric)]

/-- All four deltas disappear, and the tensor changes its sign. -/
theorem reduceDeltas_deltaCycle :
    ∃ w D rest s, deltaCycle.factors = w.map Expr.tensor ∧ IsDeltaSubstitution w D rest s ∧
      deltaCycleReduced = (Expr.prod (rest.map Expr.tensor)).rename s := by
  have hcan : deltaCycle.IsCanonical := Expr.canonical_eq_self_iff.mp (by decide +kernel)
  have hmem : (1, deltaCycle) ∈ deltaCycle.terms := by decide +kernel
  have hred : deltaCycle.reduceDeltas = deltaCycleReduced := by decide +kernel
  rw [← hred]
  exact reduceDeltas_substitution hcan hmem

end SecondQuant
