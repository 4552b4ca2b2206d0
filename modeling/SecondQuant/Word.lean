import SecondQuant.Combination
import SecondQuant.Sorting
import SecondQuant.Tensor

/-!
# Words

A word is a product of tensors in order.  C-numbers commute with everything, so each word has a
normal form: its c-numbers in ascending order, then its operators in the order they were written.
A weighted sum of words is a linear combination that is kept reduced, so equal words are merged
as soon as they meet.

* `Word.normal`, `Word.normal_normal`, `Word.operators_normal` — the normal form of a word, which
  is its own normal form and has the operators of the word in order.
* `Word.normal_append` — a product of words needs no more than inserting the first into the
  normal form of the second.
* `WordSum.ofWords` — the reduced combination of weighted words.
-/

namespace SecondQuant

/-- A product of tensors in order. -/
abbrev Word := List Tensor

/-- A weighted sum of words. -/
abbrev WordSum := Combination Word

/-! ## Words -/

/-- The tensor itself if it is a c-number. -/
def Tensor.cNumber? (t : Tensor) : Option Tensor :=
  if t.isOperator then none else some t

/-- The order of tensors inside a word: c-numbers ascend and stand before the operators, which are
not told apart and so keep their places. -/
def Tensor.placeCmp : Tensor → Tensor → Ordering :=
  compareLex (compareOn Tensor.isOperator) (compareOn Tensor.cNumber?)

instance : Std.TransCmp Tensor.placeCmp :=
  inferInstanceAs (Std.TransCmp <|
    compareLex (compareOn Tensor.isOperator) (compareOn Tensor.cNumber?))

namespace Word

/-- The operators of a word in their order. -/
def operators (w : Word) : List Tensor :=
  w.filter Tensor.isOperator

/-- The normal form of a word: c-numbers in ascending order, then operators in order. -/
def normal (w : Word) : Word :=
  sortBy Tensor.placeCmp w

/-- The product of two words in normal form. -/
def mul (u v : Word) : Word :=
  insertEach Tensor.placeCmp u v

/-- Shorter words first; among words of one length the first difference decides. -/
def cmp : Word → Word → Ordering :=
  compareLex (compareOn List.length) compare

instance : Std.TransCmp cmp :=
  inferInstanceAs (Std.TransCmp <| compareLex (compareOn List.length) compare)

instance : Std.LawfulEqCmp cmp where
  eq_of_compare h := Std.LawfulEqOrd.eq_of_compare (Ordering.then_eq_eq.mp h).2

end Word

/-! ## The normal form -/

theorem Tensor.placeCmp_operators {s t : Tensor} (hs : s.isOperator = true)
    (ht : t.isOperator = true) : (s.placeCmp t).isLE := by
  have h : s.placeCmp t =
      (compare s.isOperator t.isOperator).then (compare s.cNumber? t.cNumber?) := rfl
  rw [h, Tensor.cNumber?, Tensor.cNumber?, if_pos hs, if_pos ht, hs, ht]
  rfl

/-- A tensor that another one must stand behind is a c-number. -/
theorem Tensor.isOperator_of_not_isLE {s t : Tensor} (h : ¬(s.placeCmp t).isLE) :
    t.isOperator = false := by
  cases ht : t.isOperator with
  | false => rfl
  | true =>
      refine absurd ?_ h
      cases hs : s.isOperator with
      | true => exact placeCmp_operators hs ht
      | false =>
          have hlt : s.placeCmp t =
              (compare s.isOperator t.isOperator).then (compare s.cNumber? t.cNumber?) := rfl
          rw [hlt, hs, ht]
          rfl

namespace Word

theorem normal_perm (w : Word) : w.normal.Perm w :=
  sortBy_perm Tensor.placeCmp w

/-- The operators of a word keep their order. -/
theorem operators_normal (w : Word) : w.normal.operators = w.operators :=
  filter_sortBy (fun _ _ => Tensor.placeCmp_operators) w

/-- A normal form is its own normal form. -/
@[simp] theorem normal_normal (w : Word) : w.normal.normal = w.normal :=
  sortBy_eq_self (pairwise_sortBy w)

/-- The product with a normal form is the normal form of the product. -/
theorem normal_append (u v : Word) : Word.normal (u ++ v) = u.mul v.normal :=
  sortBy_append Tensor.placeCmp u v

end Word

/-! ## Weighted sums of words -/

namespace WordSum

/-- The reduced combination of weighted words, each in normal form. -/
def ofWords (ts : List (Rat × Word)) : WordSum :=
  Combination.collect Word.cmp (ts.map fun t => (t.1, t.2.normal))

/-- The sum whose only member is the empty word. -/
def one : WordSum := [(1, [])]

/-- The product: each word of the first sum followed by each word of the second. -/
def mul (p q : WordSum) : WordSum :=
  Combination.collect Word.cmp (p.flatMap fun s => q.map fun t => (s.1 * t.1, s.2.mul t.2))

/-- All words read backwards. -/
def reverse (p : WordSum) : WordSum :=
  ofWords (p.map fun s => (s.1, s.2.reverse))

/-- The expansion of a number: the empty word with that weight. -/
def ofRat (r : Rat) : WordSum :=
  Combination.single (r, [])

end WordSum

end SecondQuant
