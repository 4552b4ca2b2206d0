import SecondQuant.Index
import SecondQuant.Sign
import SecondQuant.Sorting

/-!
# Tensors and ladder operators

A leaf of an expression is a tensor: a name with upper and lower indices and a symmetry.  A
tensor that carries a ladder tag stands for an elementary creation or annihilation operator; one
without a tag is a c-number and commutes with everything.

* `Tensor.elementary?` — what an operator does and on which index, when it is well formed: no
  upper index and exactly one lower index.
* `Tensor.adjoint` — creation and annihilation change places; a c-number exchanges its upper and
  lower indices.
* `Ord Tensor` — c-numbers before operators, then name, list lengths, indices, symmetry and tag;
  the order is lawful.
* `Tensor.canonical?` — the index lists sorted, with the sign of the two sorting permutations; an
  antisymmetric tensor that repeats an index in a list vanishes and has none.
-/

namespace SecondQuant

/-! ## Tags -/

/-- How a tensor reacts to a permutation inside one of its index lists. -/
inductive Symmetry where
  /-- The order of the indices matters. -/
  | plain
  /-- The order does not matter. -/
  | symmetric
  /-- An exchange changes the sign. -/
  | antisymmetric
  deriving DecidableEq

/-- The exchange statistics of a particle. -/
inductive Statistics where
  | fermion
  | boson
  deriving DecidableEq

/-- What an elementary operator does to the number of quanta. -/
inductive Action where
  | creation
  | annihilation
  deriving DecidableEq

/-- The tag of an elementary operator. -/
structure Ladder where
  statistics : Statistics
  action : Action
  deriving DecidableEq

namespace Symmetry

/-- The place of a symmetry in the order. -/
def rank : Symmetry → Nat
  | plain => 0
  | symmetric => 1
  | antisymmetric => 2

instance : Ord Symmetry := ⟨compareOn rank⟩

instance : Std.TransOrd Symmetry :=
  inferInstanceAs (Std.TransCmp (compareOn rank))

theorem rank_inj {s t : Symmetry} (h : s.rank = t.rank) : s = t := by
  cases s <;> cases t <;> simp_all [rank]

instance : Std.LawfulEqOrd Symmetry where
  eq_of_compare h := rank_inj (Std.LawfulEqOrd.eq_of_compare h)

end Symmetry

namespace Action

/-- The action of the adjoint operator. -/
def adjoint : Action → Action
  | creation => annihilation
  | annihilation => creation

@[simp] theorem adjoint_adjoint (a : Action) : a.adjoint.adjoint = a := by cases a <;> rfl

end Action

namespace Ladder

/-- The tag of the adjoint operator. -/
def adjoint (l : Ladder) : Ladder :=
  { l with action := l.action.adjoint }

/-- The place of a tag in the order: fermions before bosons, creation before annihilation. -/
def rank : Ladder → Nat
  | ⟨.fermion, .creation⟩ => 0
  | ⟨.fermion, .annihilation⟩ => 1
  | ⟨.boson, .creation⟩ => 2
  | ⟨.boson, .annihilation⟩ => 3

instance : Ord Ladder := ⟨compareOn rank⟩

instance : Std.TransOrd Ladder :=
  inferInstanceAs (Std.TransCmp (compareOn rank))

theorem rank_inj {k l : Ladder} (h : k.rank = l.rank) : k = l := by
  obtain ⟨_ | _, _ | _⟩ := k <;> obtain ⟨_ | _, _ | _⟩ := l <;> simp_all [rank]

instance : Std.LawfulEqOrd Ladder where
  eq_of_compare h := rank_inj (Std.LawfulEqOrd.eq_of_compare h)

@[simp] theorem adjoint_adjoint (l : Ladder) : l.adjoint.adjoint = l := by simp [adjoint]

end Ladder

/-! ## Tensors -/

/-- A named tensor; with a ladder tag, an elementary operator. -/
structure Tensor where
  name : String
  upper : List Index
  lower : List Index
  symmetry : Symmetry
  ladder : Option Ladder
  deriving DecidableEq

namespace Tensor

/-- A tensor without a ladder tag. -/
def cNumber (name : String) (upper lower : List Index) (symmetry : Symmetry) : Tensor :=
  ⟨name, upper, lower, symmetry, none⟩

/-- The elementary operator of a tag on an index: `a` for fermions, `b` for bosons. -/
def elementary (l : Ladder) (i : Index) : Tensor :=
  ⟨match l.statistics with | .fermion => "a" | .boson => "b", [], [i], .plain, some l⟩

/-- Whether the tensor carries a ladder tag. -/
def isOperator (t : Tensor) : Bool :=
  t.ladder.isSome

/-- The tag and the index of a well-formed elementary operator. -/
def elementary? (t : Tensor) : Option (Ladder × Index) :=
  match t.ladder, t.upper, t.lower with
  | some l, [], [i] => some (l, i)
  | _, _, _ => none

/-- The indices in reading order: upper, then lower. -/
def indices (t : Tensor) : List Index :=
  t.upper ++ t.lower

/-- The Hermitian conjugate. -/
def adjoint (t : Tensor) : Tensor :=
  match t.ladder with
  | some l => { t with ladder := some l.adjoint }
  | none => { t with upper := t.lower, lower := t.upper }

/-- All indices replaced at once. -/
def rename (σ : Renaming) (t : Tensor) : Tensor :=
  { t with upper := t.upper.map σ, lower := t.lower.map σ }

/-! ## Order -/

/-- C-numbers before operators, then name, lengths, indices, symmetry and tag. -/
def cmp : Tensor → Tensor → Ordering :=
  compareLex (compareOn isOperator) <|
  compareLex (compareOn name) <|
  compareLex (compareOn fun t => t.upper.length) <|
  compareLex (compareOn fun t => t.lower.length) <|
  compareLex (compareOn upper) <|
  compareLex (compareOn lower) <|
  compareLex (compareOn symmetry) (compareOn ladder)

instance : Ord Tensor := ⟨cmp⟩

instance : Std.TransOrd Tensor :=
  inferInstanceAs (Std.TransCmp <|
    compareLex (compareOn isOperator) <|
    compareLex (compareOn name) <|
    compareLex (compareOn fun t => t.upper.length) <|
    compareLex (compareOn fun t => t.lower.length) <|
    compareLex (compareOn upper) <|
    compareLex (compareOn lower) <|
    compareLex (compareOn symmetry) (compareOn ladder))

instance : Std.LawfulEqOrd Tensor where
  eq_of_compare {s t} h := by
    obtain ⟨_, h⟩ := Ordering.then_eq_eq.mp h
    obtain ⟨hn, h⟩ := Ordering.then_eq_eq.mp h
    obtain ⟨_, h⟩ := Ordering.then_eq_eq.mp h
    obtain ⟨_, h⟩ := Ordering.then_eq_eq.mp h
    obtain ⟨hu, h⟩ := Ordering.then_eq_eq.mp h
    obtain ⟨hl, h⟩ := Ordering.then_eq_eq.mp h
    obtain ⟨hs, ho⟩ := Ordering.then_eq_eq.mp h
    have hn : s.name = t.name := Std.LawfulEqOrd.eq_of_compare hn
    have hu : s.upper = t.upper := Std.LawfulEqOrd.eq_of_compare hu
    have hl : s.lower = t.lower := Std.LawfulEqOrd.eq_of_compare hl
    have hs : s.symmetry = t.symmetry := Std.LawfulEqOrd.eq_of_compare hs
    have ho : s.ladder = t.ladder := Std.LawfulEqOrd.eq_of_compare ho
    cases s; cases t; simp_all

/-! ## Conjugation -/

@[simp] theorem isOperator_adjoint (t : Tensor) : t.adjoint.isOperator = t.isOperator := by
  unfold adjoint isOperator
  split <;> simp_all

@[simp] theorem adjoint_adjoint (t : Tensor) : t.adjoint.adjoint = t := by
  cases t with
  | mk name upper lower symmetry ladder => cases ladder <;> simp [adjoint]

@[simp] theorem rename_id (t : Tensor) : t.rename id = t := by simp [rename]

theorem rename_rename (σ τ : Renaming) (t : Tensor) :
    (t.rename σ).rename τ = t.rename (τ ∘ σ) := by simp [rename]

end Tensor

/-! ## Canonical form -/

/-- The number of pairs in a list whose first member is the greater one. -/
def inversions {α : Type} [Ord α] : List α → Nat
  | [] => 0
  | i :: is => is.countP (fun j => compare i j == .gt) + inversions is

/-- The sign of the permutation that sorts a list. -/
def sortingSign {α : Type} [Ord α] (is : List α) : Sign :=
  Sign.ofParity (inversions is)

namespace Tensor

/-- The tensor with both index lists in ascending order. -/
def sorted (t : Tensor) : Tensor :=
  { t with upper := sortBy compare t.upper, lower := sortBy compare t.lower }

/-- The sign and the canonical tensor; `none` for an antisymmetric tensor that repeats an index
in a list. -/
def canonical? (t : Tensor) : Option (Sign × Tensor) :=
  match t.symmetry with
  | .plain => some (.plus, t)
  | .symmetric => some (.plus, t.sorted)
  | .antisymmetric =>
      if t.upper.Nodup ∧ t.lower.Nodup then
        some (sortingSign t.upper * sortingSign t.lower, t.sorted)
      else none

end Tensor

end SecondQuant
