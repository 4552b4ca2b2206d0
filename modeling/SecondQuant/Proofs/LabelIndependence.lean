import SecondQuant.Proofs.DrawnLabels
import SecondQuant.Proofs.RelabelledReduction

/-!
# Evaluation does not depend on labels

The numbers of dummies decide the order of terms and factors, the orientation of deltas, which delta
is eliminated first, which of its indices stays, and the signs of antisymmetric tensors.  None of
this is seen from outside: as long as new labels keep the order of the old ones, an expression under
new labels is evaluated to the same result under new labels, and once its dummies are renumbered to
the same result.  Building on another context is such a change of labels.

* `accepts_words_relabel`, `vanishing_words_relabel` — success, and the counts.
* `finish_relabel_reduced` — after the reduction no label is left.
* `evaluation_label_independent` — two evaluations side by side, and where such labels come from.
-/

namespace SecondQuant

/-! ## Two evaluations -/

section Relabel

variable {o : Options} {M : Pattern} {e : Expr} {r : Renaming}

theorem accepts_words_relabel (he : e.IsCanonical) (h : Relabels r e.indices) :
    (∀ t ∈ (e.rename r).words, t.2.Accepts M) ↔ ∀ t ∈ e.words, t.2.Accepts M := by
  rw [Expr.words_rename he h, WordSum.relabel, List.forall_mem_map]
  simp only [Word.accepts_rename]

/-- The same terms vanish under new labels. -/
theorem vanishing_words_relabel (he : e.IsCanonical) (h : Relabels r e.indices) :
    (e.rename r).words.countP (fun t => !M.contracts t.2.chain) =
      e.words.countP fun t => !M.contracts t.2.chain := by
  rw [Expr.words_rename he h, WordSum.relabel, List.countP_map]
  refine List.countP_congr fun t ht => ?_
  rw [Function.comp, Word.contracts_relabel h (Expr.usesOnly_words he t ht)]

theorem finish_relabel_unreduced (ho : o.reduce = false) (e : Expr) :
    finish o (e.rename r) = (finish o e).rename r := by
  rw [finish_unreduced ho, finish_unreduced ho]

/-- Once deltas are eliminated and dummies renumbered, no label is left. -/
theorem finish_relabel_reduced (ho : o.reduce = true) (he : e.IsCanonical)
    (h : Relabels r e.indices) : finish o (e.rename r) = finish o e := by
  have hreduced : Relabels r e.reduceDeltas.indices :=
    h.mono fun _ hi => Expr.mem_indices_reduceDeltas he hi
  simp only [finish, ho, if_true, Expr.reduceDeltas_relabel he h,
    Expr.renumberDummies_relabel (Expr.isCanonical_reduceDeltas he) hreduced]

/-- What two evaluations under different labels have in common. -/
theorem contract_relabel_eq (he : e.IsCanonical) (h : Relabels r e.indices) {x y : Evaluation}
    (hx : contract o M e = .ok x) (hy : contract o M (e.rename r) = .ok y) :
    y.evaluated = x.evaluated ∧ y.vanished = x.vanished ∧
      (o.reduce = false → y.result = x.result.rename r) ∧
      (o.reduce = true → y.result = x.result) := by
  obtain ⟨_, rfl⟩ := contract_eq_ok_iff.mp hx
  obtain ⟨_, rfl⟩ := contract_eq_ok_iff.mp hy
  have hcan := isCanonical_toExpr_contract o M e
  have hlabels : Relabels r (e.words.contract o M).toExpr.indices :=
    h.mono fun _ hi => Expr.mem_indices_contract he hi
  refine ⟨?_, vanishing_words_relabel he h, fun ho => ?_, fun ho => ?_⟩
  · show (e.rename r).words.length = e.words.length
    rw [Expr.words_rename he h, WordSum.relabel, List.length_map]
  · show finish o ((e.rename r).words.contract o M).toExpr = _
    rw [Expr.contract_relabel o M he h, finish_relabel_unreduced ho]
  · show finish o ((e.rename r).words.contract o M).toExpr = _
    rw [Expr.contract_relabel o M he h, finish_relabel_reduced ho hcan hlabels]

end Relabel

/-- **Evaluation does not depend on labels.**  Let new labels leave the external indices of a
canonical expression alone and keep the spaces, the kinds and the order of its indices.  The
contraction of the expression succeeds under the new labels exactly when it succeeds under the old
ones, as many terms are evaluated and vanish, and the result is the relabelled one, or the same one
if deltas are eliminated and dummies renumbered.  What a program builds on another context has such
labels. -/
theorem evaluation_label_independent :
    (∀ (o : Options) (M : Pattern) (e : Expr) (r : Renaming), e.IsCanonical →
      Relabels r e.indices →
      ((∃ y, contract o M (e.rename r) = .ok y) ↔ ∃ x, contract o M e = .ok x) ∧
      ∀ x y, contract o M e = .ok x → contract o M (e.rename r) = .ok y →
        y.evaluated = x.evaluated ∧ y.vanished = x.vanished ∧
        (o.reduce = false → y.result = x.result.rename r) ∧
        (o.reduce = true → y.result = x.result)) ∧
    ∀ d, Builder.Builds d → ∀ c c' : IndexContext,
      (d.run c).1.IsCanonical ∧ Relabels (c.recount c') (d.run c).1.indices ∧
        (d.run c').1 = (d.run c).1.rename (c.recount c') := by
  refine ⟨fun o M e r he h => ⟨?_, fun x y => contract_relabel_eq he h⟩, fun d hd => hd.recount⟩
  simp only [contract_eq_ok_iff, accepts_words_relabel he h]
  exact ⟨fun ⟨_, haccepts, _⟩ => ⟨_, haccepts, rfl⟩, fun ⟨_, haccepts, _⟩ => ⟨_, haccepts, rfl⟩⟩

/-- A context that has handed out three general dummies. -/
def laterContext : IndexContext := ⟨0, 0, 3, 0⟩

/-- The electronic Hamiltonian, built on a context. -/
def electronicOn (c : IndexContext) : Expr :=
  (Builder.electronicHamiltonian.run c).1

/-- The one-body term after the contraction of its two operators. -/
def openTrace : Expr :=
  .prod [.tensor (.cNumber "f" [.dummy .general 1] [.dummy .general 2] .plain),
    .tensor (.cNumber "δ" [.dummy .general 1] [.dummy .general 2] .plain)]

/-- The electronic Hamiltonian on a later context: of its two terms one vanishes, and the other one
is contracted to the same trace, under other labels as long as the delta is there. -/
theorem evaluation_label_independent_electronic :
    electronicOn laterContext ≠ electronicOn .empty ∧
    (∃ y, contract {} neighbours (electronicOn laterContext) = .ok y ∧
      y.result = openTrace.rename (IndexContext.empty.recount laterContext)) ∧
    ∃ y, contract { reduce := true } neighbours (electronicOn laterContext) = .ok y ∧
      y.evaluated = 2 ∧ y.vanished = 1 ∧ y.result = oneBodyTrace := by
  have hopen : contract {} neighbours (electronicOn .empty) =
      .ok ⟨electronicOn .empty, openTrace, 2, 1, false⟩ := by decide +kernel
  have hreduced : contract { reduce := true } neighbours (electronicOn .empty) =
      .ok ⟨electronicOn .empty, oneBodyTrace, 2, 1, true⟩ := by decide +kernel
  obtain ⟨hcontract, hbuild⟩ := evaluation_label_independent
  obtain ⟨hcan, hlabels, hrename⟩ :=
    hbuild _ Builder.Builds.electronicHamiltonian .empty laterContext
  refine ⟨by decide +kernel, ?_, ?_⟩
  · obtain ⟨hiff, heq⟩ := hcontract {} neighbours _ _ hcan hlabels
    rw [← hrename] at hiff heq
    obtain ⟨y, hy⟩ := hiff.mpr ⟨_, hopen⟩
    obtain ⟨_, _, hresult, _⟩ := heq _ y hopen hy
    exact ⟨y, hy, hresult rfl⟩
  · obtain ⟨hiff, heq⟩ := hcontract { reduce := true } neighbours _ _ hcan hlabels
    rw [← hrename] at hiff heq
    obtain ⟨y, hy⟩ := hiff.mpr ⟨_, hreduced⟩
    obtain ⟨hevaluated, hvanished, _, hresult⟩ := heq _ y hreduced hy
    exact ⟨y, hy, hevaluated, hvanished, hresult rfl⟩

end SecondQuant
