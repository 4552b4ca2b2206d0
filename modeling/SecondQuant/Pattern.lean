import SecondQuant.Error

/-!
# Contraction patterns

A pattern is a list of directed pairs of positions in a chain of operators, in which no position
occurs twice.  A pattern carries the proof of that.

* `Pattern.fault?` — the first fault of a list of pairs; `Pattern.fault?_eq_none_iff` says that
  there is none exactly when the positions are distinct.
* `Pattern.ofPairs` — the pattern of a list of pairs, or its first fault.
* `Pattern.checkBounds` — whether a chain is long enough for a pattern.
-/

namespace SecondQuant

/-- Two positions of a chain, the left one first in reading a contraction. -/
structure Pair where
  left : Nat
  right : Nat
  deriving DecidableEq

namespace Pair

/-- The smaller position. -/
def low (p : Pair) : Nat := min p.left p.right

/-- The larger position. -/
def high (p : Pair) : Nat := max p.left p.right

/-- Whether the pair is written from right to left. -/
def isReversed (p : Pair) : Bool := decide (p.right < p.left)

end Pair

/-- The positions of a list of pairs, in order. -/
def positions : List Pair → List Nat
  | [] => []
  | p :: ps => p.left :: p.right :: positions ps

/-- A list of pairs whose positions are distinct. -/
structure Pattern where
  pairs : List Pair
  nodup : (positions pairs).Nodup
  deriving DecidableEq

namespace Pattern

/-! ## Faults -/

/-- The fault of one pair, given the positions used before it. -/
def pairFault? (used : List Nat) (p : Pair) : Option PatternFault :=
  if p.left = p.right then some (.selfPair p.left)
  else if p.left ∈ used then some (.reused p.left)
  else if p.right ∈ used then some (.reused p.right)
  else none

/-- The first fault of a list of pairs, given the positions used before it. -/
def fault? (used : List Nat) : List Pair → Option PatternFault
  | [] => none
  | p :: ps => (pairFault? used p).or (fault? (p.left :: p.right :: used) ps)

theorem pairFault?_eq_none_iff {used : List Nat} {p : Pair} :
    pairFault? used p = none ↔ p.left ≠ p.right ∧ p.left ∉ used ∧ p.right ∉ used := by
  unfold pairFault?
  split
  · simp_all
  · split
    · simp_all
    · split <;> simp_all

/-- A list of pairs is free of faults exactly when its positions are distinct and new. -/
theorem fault?_eq_none_iff {used : List Nat} {ps : List Pair} :
    fault? used ps = none ↔ (positions ps).Nodup ∧ ∀ k ∈ positions ps, k ∉ used := by
  induction ps generalizing used with
  | nil => simp [fault?, positions]
  | cons p ps ih =>
      rw [fault?, Option.or_eq_none_iff, pairFault?_eq_none_iff, ih, positions]
      simp only [List.nodup_cons, List.mem_cons, not_or]
      constructor
      · rintro ⟨⟨hne, hl, hr⟩, hnd, hnew⟩
        refine ⟨⟨⟨hne, fun h => (hnew _ h).1 rfl⟩, fun h => (hnew _ h).2.1 rfl, hnd⟩, ?_⟩
        rintro k (rfl | rfl | hk)
        · exact hl
        · exact hr
        · exact (hnew k hk).2.2
      · rintro ⟨⟨⟨hne, hlm⟩, hrm, hnd⟩, hnew⟩
        refine ⟨⟨hne, hnew _ (.inl rfl), hnew _ (.inr (.inl rfl))⟩, hnd, fun k hk => ?_⟩
        exact ⟨fun h => hlm (h ▸ hk), fun h => hrm (h ▸ hk), hnew k (.inr (.inr hk))⟩

/-! ## Construction -/

/-- The pattern of a list of pairs, or the first fault of the list. -/
def ofPairs (ps : List Pair) : Except Error Pattern :=
  match h : fault? [] ps with
  | some f => .error (.invalidPattern f none)
  | none => .ok ⟨ps, (fault?_eq_none_iff.mp h).1⟩

/-- Every pattern is the pattern of its own pairs. -/
theorem ofPairs_pairs (M : Pattern) : ofPairs M.pairs = .ok M := by
  have hn : fault? [] M.pairs = none :=
    fault?_eq_none_iff.mpr ⟨M.nodup, fun _ _ => List.not_mem_nil⟩
  unfold ofPairs
  split
  · next h => rw [hn] at h; cases h
  · rfl

/-- Whether the pattern contracts nothing. -/
def isEmpty (M : Pattern) : Bool := M.pairs.isEmpty

/-! ## Bounds -/

/-- The first pair that reaches beyond a chain of length `n`. -/
def outOfChain? (M : Pattern) (n : Nat) : Option PatternFault :=
  (M.pairs.find? fun p => n ≤ p.high).map fun p => .outOfChain p.high n

/-- Refuses a pattern that reaches beyond a chain of length `n`. -/
def checkBounds (M : Pattern) (n : Nat) : Except Error Unit :=
  match M.outOfChain? n with
  | some f => .error (.invalidPattern f none)
  | none => .ok ()

end Pattern

end SecondQuant
