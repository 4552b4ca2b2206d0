/-!
# Exact coefficients

Coefficients are core's rationals: always reduced, with a positive denominator.  This module adds
what the library shows of them: their two written forms, their order as a three-way comparison,
and a few questions asked of a single number.

* `Rational.text` — `n`, or `n/d` when the denominator is not 1.
* `Rational.latex` — the same number as a LaTeX fraction with its sign in front.
* `Rational.cmp` — the order by value, lawful in the sense of `Std.TransCmp` and
  `Std.LawfulEqCmp`.
-/

namespace SecondQuant

/-- A text between braces. -/
def braced (s : String) : String :=
  "\x7b" ++ s ++ "\x7d"

/-- The decimal digits of an integer, after a minus sign if it is negative. -/
def intText : Int → String
  | .ofNat n => Nat.repr n
  | .negSucc n => "-" ++ Nat.repr (n + 1)

namespace Rational

/-! ## Questions -/

/-- Whether the number is an integer. -/
def isInteger (r : Rat) : Bool :=
  r.den == 1

/-- Whether the number is below zero. -/
def isNegative (r : Rat) : Bool :=
  decide (r < 0)

/-- The absolute value. -/
def abs (r : Rat) : Rat :=
  if r < 0 then -r else r

/-! ## Written forms -/

/-- Numerator and denominator with a slash between them; an integer stands alone. -/
def text (r : Rat) : String :=
  if isInteger r then intText r.num else intText r.num ++ "/" ++ Nat.repr r.den

/-- A LaTeX fraction; the sign stands in front of the fraction, not in its numerator. -/
def latex (r : Rat) : String :=
  if isInteger r then intText r.num
  else
    let fraction := "\\frac" ++ braced (Nat.repr r.num.natAbs) ++ braced (Nat.repr r.den)
    if r.num < 0 then "-" ++ fraction else fraction

/-! ## Order -/

/-- The order of the rationals by value. -/
def cmp (a b : Rat) : Ordering :=
  if a < b then .lt else if a = b then .eq else .gt

@[simp] theorem cmp_self (a : Rat) : cmp a a = .eq := by
  rw [cmp, if_neg Rat.lt_irrefl, if_pos rfl]

theorem eq_of_cmp {a b : Rat} (h : cmp a b = .eq) : a = b := by
  unfold cmp at h
  split at h
  · cases h
  · split at h
    · assumption
    · cases h

instance : Std.LawfulEqCmp cmp where
  compare_self := cmp_self _
  eq_of_compare := eq_of_cmp

theorem cmp_isLE_iff {a b : Rat} : (cmp a b).isLE ↔ a ≤ b := by
  unfold cmp
  split
  · next h => simp [Rat.le_of_lt h]
  · next h =>
    split
    · next he => simp [he]
    · next he =>
      have hb : b ≤ a := Rat.not_lt.mp h
      simp only [Ordering.isLE_gt, Bool.false_eq_true, false_iff]
      exact fun ha => he (Rat.le_antisymm ha hb)

theorem cmp_of_lt {a b : Rat} (h : a < b) : cmp a b = .lt := if_pos h

theorem cmp_of_gt {a b : Rat} (h : b < a) : cmp a b = .gt := by
  have hn : ¬ a < b := Rat.not_lt.mpr (Rat.le_of_lt h)
  have he : a ≠ b := fun e => Rat.lt_irrefl (e ▸ h)
  rw [cmp, if_neg hn, if_neg he]

theorem cmp_swap (a b : Rat) : cmp a b = (cmp b a).swap := by
  by_cases h : a < b
  · rw [cmp_of_lt h, cmp_of_gt h]; rfl
  · by_cases he : a = b
    · rw [he, cmp_self]; rfl
    · have hb : b < a := Rat.not_le.mp fun hab => he (Rat.le_antisymm hab (Rat.not_lt.mp h))
      rw [cmp_of_gt hb, cmp_of_lt hb]; rfl

instance : Std.TransCmp cmp where
  eq_swap := cmp_swap _ _
  isLE_trans := by
    intro a b c hab hbc
    rw [cmp_isLE_iff] at *
    exact Rat.le_trans hab hbc

end Rational

end SecondQuant
