import SecondQuant.Expr.Order
import SecondQuant.Rational

/-!
# LaTeX

The written form of indices, tensors and expressions.

* An index is its letter with its number as a subscript.
* A well-formed operator is written `a` or `b` with its index below and a dagger for creation.
  Any other tensor is written with its name, barred if antisymmetric and hatted if symmetric, and
  its two index lists.
* A product is written without a sign; a leading constant is its coefficient, and a sum among its
  factors stands between parentheses.
* A sum joins its terms by plus or minus signs, with the absolute value of each later coefficient.
-/

namespace SecondQuant

/-! ## Leaves -/

/-- The letter with the number as a subscript. -/
def Index.latex (i : Index) : String :=
  String.singleton i.letter ++ "_" ++ braced (Nat.repr i.number)

namespace Tensor

/-- The name as a LaTeX symbol; four Greek letters have commands of their own. -/
def latexName (name : String) : String :=
  if name = "δ" then "\\delta"
  else if name = "ω" then "\\omega"
  else if name = "ε" then "\\epsilon"
  else if name = "λ" then "\\lambda"
  else name

/-- The accent of a symmetry over a symbol. -/
def accented : Symmetry → String → String
  | .plain, s => s
  | .antisymmetric, s => "\\bar" ++ braced s
  | .symmetric, s => "\\hat" ++ braced s

/-- A list of indices behind a script mark; an empty list needs none. -/
def script (mark : String) (is : List Index) : String :=
  if is.isEmpty then "" else mark ++ braced (String.join (is.map fun i => braced i.latex))

/-- An elementary operator. -/
def ladderLatex (l : Ladder) (i : Index) : String :=
  let letter := match l.statistics with | .fermion => "a" | .boson => "b"
  let dagger := match l.action with | .creation => "^" ++ braced "\\dagger" | .annihilation => ""
  braced (letter ++ dagger ++ "_" ++ braced i.latex)

/-- The LaTeX form of a tensor. -/
def latex (t : Tensor) : String :=
  match t.elementary? with
  | some (l, i) => ladderLatex l i
  | none =>
      braced (accented t.symmetry (latexName t.name) ++ script "^" t.upper ++ script "_" t.lower)

end Tensor

namespace Expr

/-! ## Coefficients -/

/-- The coefficient in front of a monomial: nothing for 1, a sign for -1, and always the number
itself in front of the monomial 1. -/
def coefficientLatex (c : Rat) (m : Expr) : String :=
  if m.isOne then Rational.latex c
  else if c = 1 then ""
  else if c = -1 then "-"
  else Rational.latex c

/-- The leading constant of a product; -1 is written as a sign. -/
def headLatex (c : Rat) : String :=
  if c = -1 then "-" else Rational.latex c

/-- The sign that joins a later term to the terms before it. -/
def joint (c : Rat) : String :=
  if Rational.isNegative c then " - " else " + "

/-- The monomial behind its coefficient, given its own form; the monomial 1 is not written. -/
def behindCoefficient (m : Expr) (s : String) : String :=
  if m.isOne then "" else s

/-- A factor, given its own form: a sum needs parentheses. -/
def asFactor : Expr → String → String
  | sum _, s => "\\left(" ++ s ++ "\\right)"
  | _, s => s

/-! ## Trees -/

mutual

/-- The LaTeX form of a tree. -/
def latex : Expr → String
  | const r => Rational.latex r
  | tensor t => t.latex
  | prod es => productLatex es
  | sum ts => sumLatex ts

/-- A product: the leading constant, if there is one, and the other factors. -/
def productLatex : List Expr → String
  | const c :: es => headLatex c ++ factorsLatex es
  | [] => ""
  | e :: es => asFactor e e.latex ++ factorsLatex es

/-- Factors side by side. -/
def factorsLatex : List Expr → String
  | [] => ""
  | e :: es => asFactor e e.latex ++ factorsLatex es

/-- A sum: the first term with its coefficient, and the later terms. -/
def sumLatex : List Term → String
  | [] => ""
  | (c, m) :: ts => coefficientLatex c m ++ behindCoefficient m m.latex ++ laterTermsLatex ts

/-- Terms behind the signs that join them to the terms before. -/
def laterTermsLatex : List Term → String
  | [] => ""
  | (c, m) :: ts =>
      joint c ++ coefficientLatex (Rational.abs c) m ++ behindCoefficient m m.latex ++
        laterTermsLatex ts

end

end Expr

end SecondQuant
