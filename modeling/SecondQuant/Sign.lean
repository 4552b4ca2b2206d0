/-!
# Signs

A sign is what an exchange of fermions or of antisymmetric slots contributes: `plus` or `minus`.
`Sign.ofParity n` is the sign of a permutation with `n` inversions.

* `Sign.mul_assoc`, `Sign.mul_comm`, `Sign.mul_self` — signs form a group of two members.
* `Sign.ofParity_add` — counts of exchanges add up, their signs multiply.
-/

namespace SecondQuant

/-- A sign, `+1` or `-1`. -/
inductive Sign where
  | plus
  | minus
  deriving DecidableEq

namespace Sign

/-- The product of two signs. -/
def mul : Sign → Sign → Sign
  | plus, s => s
  | minus, plus => minus
  | minus, minus => plus

instance : Mul Sign := ⟨mul⟩

/-- `(-1)^n`. -/
def ofParity (n : Nat) : Sign :=
  if n % 2 = 0 then plus else minus

/-- The sign as a coefficient. -/
def toRat : Sign → Rat
  | plus => 1
  | minus => -1

/-! ## Laws -/

@[simp] theorem plus_mul (s : Sign) : plus * s = s := rfl

@[simp] theorem mul_plus (s : Sign) : s * plus = s := by cases s <;> rfl

@[simp] theorem mul_self (s : Sign) : s * s = plus := by cases s <;> rfl

theorem mul_comm (s t : Sign) : s * t = t * s := by cases s <;> cases t <;> rfl

theorem mul_assoc (s t u : Sign) : s * t * u = s * (t * u) := by
  cases s <;> cases t <;> cases u <;> rfl

theorem mul_left_comm (s t u : Sign) : s * (t * u) = t * (s * u) := by
  cases s <;> cases t <;> cases u <;> rfl

theorem ofParity_of_even {n : Nat} (h : n % 2 = 0) : ofParity n = plus := if_pos h

theorem ofParity_of_odd {n : Nat} (h : n % 2 = 1) : ofParity n = minus :=
  if_neg (by omega)

/-- Counts of exchanges add up, their signs multiply. -/
theorem ofParity_add (m n : Nat) : ofParity (m + n) = ofParity m * ofParity n := by
  rcases Nat.mod_two_eq_zero_or_one m with hm | hm <;>
    rcases Nat.mod_two_eq_zero_or_one n with hn | hn
  · rw [ofParity_of_even hm, ofParity_of_even hn, ofParity_of_even (by omega)]; rfl
  · rw [ofParity_of_even hm, ofParity_of_odd hn, ofParity_of_odd (by omega)]; rfl
  · rw [ofParity_of_odd hm, ofParity_of_even hn, ofParity_of_odd (by omega)]; rfl
  · rw [ofParity_of_odd hm, ofParity_of_odd hn, ofParity_of_even (by omega)]; rfl

end Sign

end SecondQuant
