import SecondQuant.Expr.Order

/-!
# The order of trees is total

Comparing two trees looks at their kinds, then at lengths, then at the members one after the
other.  Each of these criteria is oriented and transitive, and a later one is asked only where
the earlier ones found no difference.

* `isLE_then_trans` — a comparison by two criteria is transitive when the first one tells its
  members apart and both are transitive.
* `Expr.cmp_swap`, `Expr.cmp_trans` — exchanging two trees reverses their comparison, and the
  comparison is transitive, by recursion along the trees.
* `Expr.cmp_total_order` — **the order of trees is total, and equal means the same tree**.
-/

namespace SecondQuant

/-! ## Two criteria -/

/-- A comparison by two criteria is transitive when both are, and when the first one is undone by
going back: where it finds the outer two of three members equal, its second answer reverses its
first. -/
theorem isLE_then_trans {o₁ o₂ o₃ p₁ p₂ p₃ : Ordering} (ho : o₁.isLE → o₂.isLE → o₃.isLE)
    (back : o₃ = .eq → o₂ = o₁.swap) (hp : p₁.isLE → p₂.isLE → p₃.isLE)
    (h₁ : (o₁.then p₁).isLE) (h₂ : (o₂.then p₂).isLE) : (o₃.then p₃).isLE := by
  rw [Ordering.isLE_then_iff_or] at *
  cases ho₃ : o₃ with
  | lt => exact .inl rfl
  | eq =>
      -- Both first answers are then equal, so the second criterion decides all three times.
      have hs := back ho₃
      rcases h₁ with rfl | ⟨rfl, h₁⟩
      · rcases h₂ with h₂ | ⟨h₂, -⟩ <;> rw [h₂] at hs <;> cases hs
      · rcases h₂ with h₂ | ⟨-, h₂⟩
        · rw [h₂] at hs; cases hs
        · exact .inr ⟨rfl, hp h₁ h₂⟩
  | gt =>
      have h₁' : o₁.isLE := by rcases h₁ with rfl | ⟨rfl, -⟩ <;> rfl
      have h₂' : o₂.isLE := by rcases h₂ with rfl | ⟨rfl, -⟩ <;> rfl
      exact absurd (ho h₁' h₂') (by simp [ho₃])

/-- The order of coefficients is transitive. -/
theorem Rational.cmp_trans {x y z : Rat} (h : (cmp x y).isLE) (h' : (cmp y z).isLE) :
    (cmp x z).isLE :=
  Std.TransCmp.isLE_trans h h'

namespace Expr

/-! ## Orientation -/

mutual

/-- Exchanging two trees reverses their comparison. -/
theorem cmp_swap : ∀ d e : Expr, d.cmp e = (e.cmp d).swap
  | const r, const s => Rational.cmp_swap r s
  | tensor _, tensor _ => Std.OrientedOrd.eq_swap
  | prod ds, prod es => by
      rw [cmp, cmp, Ordering.swap_then, ← Std.OrientedOrd.eq_swap, ← cmpFactors_swap ds es]
  | sum ts, sum us => by
      rw [cmp, cmp, Ordering.swap_then, ← Std.OrientedOrd.eq_swap, ← cmpTerms_swap ts us]
  | const _, tensor _ | const _, prod _ | const _, sum _ => rfl
  | tensor _, const _ | tensor _, prod _ | tensor _, sum _ => rfl
  | prod _, const _ | prod _, tensor _ | prod _, sum _ => rfl
  | sum _, const _ | sum _, tensor _ | sum _, prod _ => rfl

theorem cmpFactors_swap : ∀ ds es : List Expr, cmpFactors ds es = (cmpFactors es ds).swap
  | [], [] => rfl
  | [], _ :: _ | _ :: _, [] => Std.OrientedOrd.eq_swap
  | d :: ds, e :: es => by
      rw [cmpFactors, cmpFactors, Ordering.swap_then, ← cmp_swap d e, ← cmpFactors_swap ds es]

theorem cmpTerms_swap : ∀ ts us : List Term, cmpTerms ts us = (cmpTerms us ts).swap
  | [], [] => rfl
  | [], _ :: _ | _ :: _, [] => Std.OrientedOrd.eq_swap
  | (c, d) :: ts, (k, e) :: us => by
      rw [cmpTerms, cmpTerms, Ordering.swap_then, Ordering.swap_then, ← cmp_swap d e,
        ← Rational.cmp_swap c k, ← cmpTerms_swap ts us]

end

/-- Where the outer two of three trees are equal, the second comparison reverses the first. -/
theorem cmp_back {a b c : Expr} (h : a.cmp c = .eq) : b.cmp c = (a.cmp b).swap :=
  eq_of_cmp h ▸ cmp_swap b a

/-- The same for two criteria, the second one on coefficients. -/
theorem cmp_back_term {a b c : Expr} {x y z : Rat}
    (h : (a.cmp c).then (Rational.cmp x z) = .eq) :
    (b.cmp c).then (Rational.cmp y z) = ((a.cmp b).then (Rational.cmp x y)).swap := by
  obtain ⟨h, hx⟩ := Ordering.then_eq_eq.mp h
  rw [eq_of_cmp h, Rational.eq_of_cmp hx, Ordering.swap_then, ← cmp_swap, ← Rational.cmp_swap]

/-! ## Transitivity -/

/-- A tree below another one is not of a later kind. -/
theorem rank_le_of_isLE : ∀ {d e : Expr}, (d.cmp e).isLE → d.rank ≤ e.rank
  | const _, const _, _ | tensor _, tensor _, _ | prod _, prod _, _ | sum _, sum _, _ =>
      Nat.le_refl _
  | const _, tensor _, _ | const _, prod _, _ | const _, sum _, _ => by simp [rank]
  | tensor _, prod _, _ | tensor _, sum _, _ | prod _, sum _, _ => by simp [rank]
  | tensor _, const _, h | prod _, const _, h | sum _, const _, h => nomatch h
  | prod _, tensor _, h | sum _, tensor _, h | sum _, prod _, h => nomatch h

/-- Lengths compare transitively, and going back undoes going there. -/
theorem isLE_length_then_trans {a b c : Nat} {p₁ p₂ p₃ : Ordering}
    (hp : p₁.isLE → p₂.isLE → p₃.isLE) (h₁ : ((compare a b).then p₁).isLE)
    (h₂ : ((compare b c).then p₂).isLE) : ((compare a c).then p₃).isLE :=
  isLE_then_trans Std.TransOrd.isLE_trans
    (fun h => Std.LawfulEqOrd.eq_of_compare h ▸ Std.OrientedOrd.eq_swap) hp h₁ h₂

mutual

/-- The comparison of trees is transitive. -/
theorem cmp_trans : ∀ {a b c : Expr}, (a.cmp b).isLE → (b.cmp c).isLE → (a.cmp c).isLE
  | const _, const _, const _, h, h' => Rational.cmp_trans h h'
  | tensor _, tensor _, tensor _, h, h' => Std.TransOrd.isLE_trans h h'
  | prod _, prod _, prod _, h, h' =>
      isLE_length_then_trans cmpFactors_trans h h'
  | sum _, sum _, sum _, h, h' => isLE_length_then_trans cmpTerms_trans h h'
  | const _, _, tensor _, _, _ | const _, _, prod _, _, _ | const _, _, sum _, _, _ => rfl
  | tensor _, _, prod _, _, _ | tensor _, _, sum _, _, _ | prod _, _, sum _, _, _ => rfl
  | tensor _, _, const _, h, h' | prod _, _, const _, h, h' | sum _, _, const _, h, h' =>
      absurd (Nat.le_trans (rank_le_of_isLE h) (rank_le_of_isLE h')) (by simp [rank])
  | prod _, _, tensor _, h, h' | sum _, _, tensor _, h, h' | sum _, _, prod _, h, h' =>
      absurd (Nat.le_trans (rank_le_of_isLE h) (rank_le_of_isLE h')) (by simp [rank])
  | const _, tensor _, const _, _, h' | const _, prod _, const _, _, h' => nomatch h'
  | const _, sum _, const _, _, h' | tensor _, prod _, tensor _, _, h' => nomatch h'
  | tensor _, sum _, tensor _, _, h' | prod _, sum _, prod _, _, h' => nomatch h'
  | tensor _, const _, tensor _, h, _ | prod _, const _, prod _, h, _ => nomatch h
  | sum _, const _, sum _, h, _ | prod _, tensor _, prod _, h, _ => nomatch h
  | sum _, tensor _, sum _, h, _ | sum _, prod _, sum _, h, _ => nomatch h

theorem cmpFactors_trans : ∀ {ds es fs : List Expr},
    (cmpFactors ds es).isLE → (cmpFactors es fs).isLE → (cmpFactors ds fs).isLE
  | [], _, [], _, _ => rfl
  | [], _, _ :: _, _, _ => rfl
  | _ :: _, [], _, h, _ => nomatch h
  | _ :: _, _ :: _, [], _, h' => nomatch h'
  | _ :: _, _ :: _, _ :: _, h, h' => isLE_then_trans cmp_trans cmp_back cmpFactors_trans h h'

theorem cmpTerms_trans : ∀ {ts us vs : List Term},
    (cmpTerms ts us).isLE → (cmpTerms us vs).isLE → (cmpTerms ts vs).isLE
  | [], _, [], _, _ => rfl
  | [], _, _ :: _, _, _ => rfl
  | _ :: _, [], _, h, _ => nomatch h
  | _ :: _, _ :: _, [], _, h' => nomatch h'
  | (_, _) :: _, (_, _) :: _, (_, _) :: _, h, h' =>
      isLE_then_trans (isLE_then_trans cmp_trans cmp_back Rational.cmp_trans)
        cmp_back_term cmpTerms_trans h h'

end

instance : Std.TransCmp cmp where
  eq_swap := cmp_swap _ _
  isLE_trans := cmp_trans

/-! ## The order -/

/-- **The order of trees is total, and equal means the same tree.**  For all trees, canonical or
not: exchanging two of them reverses their comparison, both "at most" and "less" are transitive,
and the comparison answers "equal" exactly on a tree and itself. -/
theorem cmp_total_order :
    (∀ a b : Expr, a.cmp b = (b.cmp a).swap) ∧
    (∀ a b c : Expr, (a.cmp b).isLE → (b.cmp c).isLE → (a.cmp c).isLE) ∧
    (∀ a b c : Expr, a.cmp b = .lt → b.cmp c = .lt → a.cmp c = .lt) ∧
    ∀ a b : Expr, a.cmp b = .eq ↔ a = b :=
  ⟨cmp_swap, fun _ _ _ => cmp_trans, fun _ _ _ => Std.TransCmp.lt_trans, fun _ _ => cmp_eq_iff⟩

/-- Three trees outside normal form in ascending order: two products that hold a sum with different
coefficients, and an empty sum. -/
theorem cmp_total_order_ascending :
    (prod [const 0, sum [(1/3, prod [])]]).cmp (prod [const 0, sum [(1/2, prod [])]]) = .lt ∧
    (prod [const 0, sum [(1/2, prod [])]]).cmp (sum []) = .lt ∧
    (prod [const 0, sum [(1/3, prod [])]]).cmp (sum []) = .lt := by
  have h₁ : (prod [const 0, sum [(1/3, prod [])]]).cmp
      (prod [const 0, sum [(1/2, prod [])]]) = .lt := by decide +kernel
  have h₂ : (prod [const 0, sum [(1/2, prod [])]]).cmp (sum []) = .lt := by decide +kernel
  exact ⟨h₁, h₂, cmp_total_order.2.2.1 _ _ _ h₁ h₂⟩

end Expr

end SecondQuant
