import SecondQuant.Expr
import SecondQuant.Rational

/-!
# The order of expressions

Constants come first, then tensors, products and sums.  Constants compare by value, tensors by
the order of tensors; products and sums compare by length first, then member by member.  The
order looks at structure only, so two runs always agree on it.

* `Expr.cmp_self`, `Expr.eq_of_cmp` — two trees compare equal exactly when they are the same
  tree; equality of trees is decided that way.
-/

namespace SecondQuant

namespace Expr

/-! ## Definition -/

/-- The place of a kind of tree in the order. -/
def rank : Expr → Nat
  | const _ => 0
  | tensor _ => 1
  | prod _ => 2
  | sum _ => 3

mutual

/-- The order of trees: kind, then length, then members. -/
def cmp : Expr → Expr → Ordering
  | const r, const s => Rational.cmp r s
  | tensor s, tensor t => compare s t
  | prod ds, prod es => (compare ds.length es.length).then (cmpFactors ds es)
  | sum ts, sum us => (compare ts.length us.length).then (cmpTerms ts us)
  | d, e => compare d.rank e.rank

/-- The first difference between two lists of factors decides. -/
def cmpFactors : List Expr → List Expr → Ordering
  | d :: ds, e :: es => (cmp d e).then (cmpFactors ds es)
  | ds, es => compare ds.length es.length

/-- The first difference between two lists of terms decides, expressions before coefficients. -/
def cmpTerms : List Term → List Term → Ordering
  | (c, d) :: ts, (k, e) :: us => ((cmp d e).then (Rational.cmp c k)).then (cmpTerms ts us)
  | ts, us => compare ts.length us.length

end

instance : Ord Expr := ⟨cmp⟩

/-! ## Agreement with equality -/

mutual

theorem cmp_self : ∀ e : Expr, e.cmp e = .eq
  | const r => Rational.cmp_self r
  | tensor _ => Std.ReflOrd.compare_self
  | prod es => by rw [cmp, Std.ReflOrd.compare_self, cmpFactors_self es]; rfl
  | sum ts => by rw [cmp, Std.ReflOrd.compare_self, cmpTerms_self ts]; rfl

theorem cmpFactors_self : ∀ es : List Expr, cmpFactors es es = .eq
  | [] => rfl
  | e :: es => by rw [cmpFactors, cmp_self e, cmpFactors_self es]; rfl

theorem cmpTerms_self : ∀ ts : List Term, cmpTerms ts ts = .eq
  | [] => rfl
  | (c, e) :: ts => by
      rw [cmpTerms, cmp_self e, cmpTerms_self ts, Rational.cmp_self]; rfl

end

mutual

theorem eq_of_cmp : ∀ {d e : Expr}, d.cmp e = .eq → d = e
  | const _, const _, h => congrArg const (Rational.eq_of_cmp h)
  | tensor _, tensor _, h => congrArg tensor (Std.LawfulEqOrd.eq_of_compare h)
  | prod _, prod _, h => congrArg prod (eq_of_cmpFactors (Ordering.then_eq_eq.mp h).2)
  | sum _, sum _, h => congrArg sum (eq_of_cmpTerms (Ordering.then_eq_eq.mp h).2)
  | const _, tensor _, h | const _, prod _, h | const _, sum _, h => nomatch h
  | tensor _, const _, h | tensor _, prod _, h | tensor _, sum _, h => nomatch h
  | prod _, const _, h | prod _, tensor _, h | prod _, sum _, h => nomatch h
  | sum _, const _, h | sum _, tensor _, h | sum _, prod _, h => nomatch h

theorem eq_of_cmpFactors : ∀ {ds es : List Expr}, cmpFactors ds es = .eq → ds = es
  | [], [], _ => rfl
  | [], _ :: _, h | _ :: _, [], h => nomatch h
  | _ :: _, _ :: _, h => by
      rw [cmpFactors, Ordering.then_eq_eq] at h
      rw [eq_of_cmp h.1, eq_of_cmpFactors h.2]

theorem eq_of_cmpTerms : ∀ {ts us : List Term}, cmpTerms ts us = .eq → ts = us
  | [], [], _ => rfl
  | [], _ :: _, h | _ :: _, [], h => nomatch h
  | (_, _) :: _, (_, _) :: _, h => by
      rw [cmpTerms, Ordering.then_eq_eq, Ordering.then_eq_eq] at h
      rw [eq_of_cmp h.1.1, Rational.eq_of_cmp h.1.2, eq_of_cmpTerms h.2]

end

theorem cmp_eq_iff {d e : Expr} : d.cmp e = .eq ↔ d = e :=
  ⟨eq_of_cmp, fun h => h ▸ cmp_self d⟩

instance : DecidableEq Expr := fun _ _ => decidable_of_iff _ cmp_eq_iff

instance : Std.LawfulEqCmp cmp where
  compare_self := cmp_self _
  eq_of_compare := eq_of_cmp

end Expr

end SecondQuant
