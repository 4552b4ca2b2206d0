import SecondQuant.Tensor

/-!
# Expressions

An expression is a tree of weighted sums and ordered products over rational constants and
tensors.  Any tree is allowed; `Expr.canonical` picks one tree for each meaning.

* `Expr.terms` — the additive decomposition into coefficients and monomials.
* `Expr.factors` — the multiplicative decomposition.
* `Expr.leaves` — the tensors of a tree in reading order, from which `Expr.operators` and
  `Expr.indices` are read off.
-/

namespace SecondQuant

/-- Weighted sums and ordered products over constants and tensors. -/
inductive Expr where
  | const (value : Rat)
  | tensor (leaf : Tensor)
  | sum (terms : List (Rat × Expr))
  | prod (factors : List Expr)

/-- A coefficient and the expression it multiplies. -/
abbrev Term := Rat × Expr

namespace Expr

/-! ## Neutral elements and questions -/

/-- The constant 0. -/
def zero : Expr := const 0

/-- The constant 1. -/
def one : Expr := const 1

/-- Whether the tree is the constant 0. -/
def isZero : Expr → Bool
  | const r => r == 0
  | _ => false

/-- Whether the tree is the constant 1. -/
def isOne : Expr → Bool
  | const r => r == 1
  | _ => false

/-- Whether the tree is a single tensor with a ladder tag. -/
def isOperator : Expr → Bool
  | tensor t => t.isOperator
  | _ => false

/-! ## Decompositions -/

/-- The product of factors that need no further work: none make 1, one stands for itself. -/
def ofFactors : List Expr → Expr
  | [] => one
  | [e] => e
  | es => prod es

/-- The coefficient and the monomial of a tree that is not a sum. -/
def splitCoefficient : Expr → Term
  | const r => (r, one)
  | prod (const r :: es) => (r, ofFactors es)
  | e => (1, e)

/-- The additive decomposition; the constant 0 has no terms. -/
def terms : Expr → List Term
  | sum ts => ts
  | e => if e.isZero then [] else [e.splitCoefficient]

/-- The multiplicative decomposition; the constant 1 has no factors. -/
def factors : Expr → List Expr
  | prod es => es
  | e => if e.isOne then [] else [e]

/-! ## Leaves -/

mutual

/-- The tensors of a tree in reading order. -/
def leaves : Expr → List Tensor
  | const _ => []
  | tensor t => [t]
  | sum ts => termLeaves ts
  | prod es => factorLeaves es

/-- The tensors of a list of terms in reading order. -/
def termLeaves : List Term → List Tensor
  | [] => []
  | (_, e) :: ts => e.leaves ++ termLeaves ts

/-- The tensors of a list of factors in reading order. -/
def factorLeaves : List Expr → List Tensor
  | [] => []
  | e :: es => e.leaves ++ factorLeaves es

end

/-- The tensors with a ladder tag, in reading order. -/
def operators (e : Expr) : List Tensor :=
  e.leaves.filter Tensor.isOperator

/-- All indices in reading order, repetitions included. -/
def indices (e : Expr) : List Index :=
  e.leaves.flatMap Tensor.indices

end Expr

end SecondQuant
