/-!
# Orbital spaces and indices

An index names a one-particle state: it lies in one of four spaces, carries a number, and is
either a dummy (summed over) or external (free, never renamed).

* `Space.meet?` — the common part of two spaces; the general space is the union of the occupied
  and the virtual one, and photon modes meet no orbital.
* `Ord Index` — space first (occupied, virtual, general, photon), then number, then dummies
  before externals; the order is lawful.
* `Renaming` — any function on indices, applied to all indices of an expression at once;
  `Renaming.ofTable` is the one that a finite table stands for.
-/

namespace SecondQuant

/-! ## Spaces -/

/-- The four kinds of one-particle state. -/
inductive Space where
  | occupied
  | virtual
  | general
  | photon
  deriving DecidableEq

namespace Space

/-- Every space, in ascending order. -/
def all : List Space := [occupied, virtual, general, photon]

/-- The place of a space in the order. -/
def rank : Space → Nat
  | occupied => 0
  | virtual => 1
  | general => 2
  | photon => 3

/-- The letter that the dummies of a space are written with. -/
def letter : Space → Char
  | occupied => 'i'
  | virtual => 'a'
  | general => 'p'
  | photon => 'x'

/-- The common part of two spaces, if they have one. -/
def meet? : Space → Space → Option Space
  | general, occupied | occupied, general => some occupied
  | general, virtual | virtual, general => some virtual
  | s, t => if s = t then some s else none

instance : Ord Space := ⟨compareOn rank⟩

instance : Std.TransOrd Space :=
  inferInstanceAs (Std.TransCmp (compareOn rank))

theorem rank_inj {s t : Space} (h : s.rank = t.rank) : s = t := by
  cases s <;> cases t <;> simp_all [rank]

instance : Std.LawfulEqOrd Space where
  eq_of_compare h := rank_inj (Std.LawfulEqOrd.eq_of_compare h)

theorem mem_all (s : Space) : s ∈ all := by cases s <;> simp [all]

@[simp] theorem meet?_self (s : Space) : s.meet? s = some s := by cases s <;> rfl

theorem meet?_comm (s t : Space) : s.meet? t = t.meet? s := by cases s <;> cases t <;> rfl

end Space

/-! ## Indices -/

/-- A numbered one-particle state; a dummy is summed over, an external index is free. -/
structure Index where
  space : Space
  number : Nat
  external : Bool
  deriving DecidableEq

namespace Index

/-- A summed index. -/
def dummy (space : Space) (number : Nat) : Index := ⟨space, number, false⟩

/-- A free index. -/
def free (space : Space) (number : Nat) : Index := ⟨space, number, true⟩

/-- Space, then number, then dummies before externals. -/
def cmp : Index → Index → Ordering :=
  compareLex (compareOn space) (compareLex (compareOn number) (compareOn external))

instance : Ord Index := ⟨cmp⟩

instance : Std.TransOrd Index :=
  inferInstanceAs <| Std.TransCmp <|
    compareLex (compareOn space) (compareLex (compareOn number) (compareOn external))

instance : Std.LawfulEqOrd Index where
  eq_of_compare {i j} h := by
    obtain ⟨hs, h⟩ := Ordering.then_eq_eq.mp h
    obtain ⟨hn, he⟩ := Ordering.then_eq_eq.mp h
    have hs : i.space = j.space := Std.LawfulEqOrd.eq_of_compare hs
    have hn : i.number = j.number := Std.LawfulEqOrd.eq_of_compare hn
    have he : i.external = j.external := Std.LawfulEqOrd.eq_of_compare he
    cases i; cases j; simp_all

/-- The letter of the space, a capital for an external index. -/
def letter (i : Index) : Char :=
  if i.external then i.space.letter.toUpper else i.space.letter

/-- The letter and the number side by side. -/
def text (i : Index) : String :=
  String.singleton i.letter ++ Nat.repr i.number

end Index

/-! ## Renaming -/

/-- A simultaneous replacement of indices. -/
abbrev Renaming := Index → Index

namespace Renaming

/-- The renaming of a table of entries `(from, to)`: the last entry for an index counts, and an
index without an entry is kept. -/
def ofTable (table : List (Index × Index)) : Renaming := fun i =>
  (table.reverse.lookup i).getD i

/-- The renaming that replaces one index. -/
def replace (old new : Index) : Renaming := fun i =>
  if i = old then new else i

@[simp] theorem ofTable_nil : ofTable [] = id := rfl

/-- The last entry of a table overrides the entries before it. -/
theorem ofTable_concat (table : List (Index × Index)) (old new i : Index) :
    ofTable (table ++ [(old, new)]) i = if i = old then new else ofTable table i := by
  simp only [ofTable, List.reverse_append, List.reverse_singleton, List.singleton_append]
  by_cases h : i = old
  · rw [if_pos h, h, List.lookup_cons_self, Option.getD_some]
  · rw [if_neg h, List.lookup_cons, beq_eq_false_iff_ne.mpr h]

end Renaming

end SecondQuant
