import SecondQuant.Expr.Collect
import SecondQuant.Expr.Expand

/-!
# The canonical form and the algebra of expressions

A tree is brought into canonical form by sorting the indices of its tensors, multiplying it out
and collecting terms.  Trees that denote the same element of the algebra have the same canonical
form, so equality of canonical trees is equality of meaning.

Sums and products combine trees that are already in canonical form into trees in canonical form:
terms are merged, products are multiplied out, c-numbers are sorted.  They do not look into the
index lists of tensors; `Expr.canonical` does, and so do the adjoint and renaming, since a tensor
that they change may vanish, change sign or become equal to another one.

* `Expr.canonical` — the canonical form of a tree.
* `Expr.weightedSum` — the weighted sum of a list; `+`, `-`, negation and scalar multiples are
  special cases.
* `Expr.product` — the ordered product of a list; `*` is a special case.
* `Expr.adjoint`, `Expr.rename` — products reversed and tensors conjugated, with real coefficients;
  all indices renamed at once.
-/

namespace SecondQuant

/-! ## Canonical form -/

/-- A tensor as a weighted word: its sign and its sorted form, or nothing if it vanishes. -/
def Tensor.canonicalWords (t : Tensor) : WordSum :=
  match t.canonical? with
  | none => []
  | some (s, u) => [(s.toRat, [u])]

namespace Expr

/-- The canonical form of a tree. -/
def canonical (e : Expr) : Expr :=
  (e.expand Tensor.canonicalWords).toExpr

/-- The canonical form of a single tensor. -/
def ofTensor (t : Tensor) : Expr :=
  t.canonicalWords.toExpr

/-! ## Lists -/

/-- The terms of one weighted expression. -/
def weightedTerms (t : Term) : List Term :=
  t.2.terms.map fun s => (t.1 * s.1, s.2)

/-- The weighted sum of expressions. -/
def weightedSum (ts : List Term) : Expr :=
  collect (ts.flatMap weightedTerms)

/-- The sum of expressions. -/
def total (es : List Expr) : Expr :=
  weightedSum (es.map fun e => (1, e))

/-- The ordered product of expressions; the empty product is 1. -/
def product (es : List Expr) : Expr :=
  (expandFactors (fun t => [(1, [t])]) es).toExpr

/-! ## Binary and unary operations -/

instance : Zero Expr := ⟨zero⟩

instance : One Expr := ⟨one⟩

instance : Add Expr := ⟨fun d e => total [d, e]⟩

instance : Sub Expr := ⟨fun d e => weightedSum [(1, d), (-1, e)]⟩

instance : Mul Expr := ⟨fun d e => product [d, e]⟩

instance : SMul Rat Expr := ⟨fun c e => weightedSum [(c, e)]⟩

instance : Neg Expr := ⟨fun e => (-1 : Rat) • e⟩

/-! ## Leaves -/

/-- An integer constant. -/
def ofInt (n : Int) : Expr := const n

/-- A c-number tensor. -/
def cNumber (name : String) (upper lower : List Index) (symmetry : Symmetry) : Expr :=
  ofTensor (Tensor.cNumber name upper lower symmetry)

/-- The operator that creates a quantum. -/
def creation (s : Statistics) (i : Index) : Expr :=
  tensor (Tensor.elementary ⟨s, .creation⟩ i)

/-- The operator that annihilates a quantum. -/
def annihilation (s : Statistics) (i : Index) : Expr :=
  tensor (Tensor.elementary ⟨s, .annihilation⟩ i)

/-! ## Adjoint and renaming -/

/-- The Hermitian adjoint, in canonical form. -/
def adjoint (e : Expr) : Expr :=
  (e.expand fun t => t.adjoint.canonicalWords).reverse.toExpr

/-- The canonical form of the tree with all its indices renamed. -/
def rename (σ : Renaming) (e : Expr) : Expr :=
  (e.expand fun t => (t.rename σ).canonicalWords).toExpr

end Expr

end SecondQuant
