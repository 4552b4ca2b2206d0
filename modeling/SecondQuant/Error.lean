import SecondQuant.Expr.Algebra
import SecondQuant.Expr.Latex

/-!
# Errors

What can go wrong, as causes, and the one place where a cause becomes a text.  The operations that
refuse their arguments for a single cause are here too: division by 0, and chains of anything but
operators.

* `MalformedFault` — an expression that is not a chain of elementary operators where one is
  needed.
* `PatternFault` — a list of pairs that is no contraction pattern, or does not fit a chain.
* `Error.message` — the text of an error.
* `Rational.divide`, `Expr.fraction` — division of exact coefficients.
* `Expr.chain` — a non-empty ordered product of operators.
-/

namespace SecondQuant

/-- Why an expression cannot serve as a chain of elementary operators. -/
inductive MalformedFault where
  /-- A chain needs at least one operator. -/
  | emptyChain
  /-- The factor at a position is not an operator. -/
  | notOperator (position : Nat)
  /-- An operator of this name does not carry exactly one lower and no upper index. -/
  | ambiguousOperator (name : String)
  deriving DecidableEq

/-- Why a list of pairs is no contraction pattern for a chain. -/
inductive PatternFault where
  /-- A position is paired with itself. -/
  | selfPair (position : Nat)
  /-- A position occurs in two places of the list. -/
  | reused (position : Nat)
  /-- A position lies beyond the end of a chain. -/
  | outOfChain (position length : Nat)
  deriving DecidableEq

/-- A term of an expression: its rank among the terms and its monomial. -/
structure TermPlace where
  rank : Nat
  monomial : Expr
  deriving DecidableEq

/-- The errors of the library. -/
inductive Error where
  | malformed (fault : MalformedFault)
  | divisionByZero
  /-- A fault of a pattern, and the term in which it shows if it does not show before. -/
  | invalidPattern (fault : PatternFault) (place : Option TermPlace)
  deriving DecidableEq

/-! ## Texts -/

/-- The text of a fault of an expression. -/
def MalformedFault.message : MalformedFault → String
  | .emptyChain => "chaîne d'opérateurs vide"
  | .notOperator k => "facteur " ++ Nat.repr k ++ " de la chaîne : pas un opérateur élémentaire"
  | .ambiguousOperator name => "opérateur " ++ name ++ " sans indice unique"

/-- The text of a fault of a pattern. -/
def PatternFault.message : PatternFault → String
  | .selfPair k =>
      "paire (" ++ Nat.repr k ++ ", " ++ Nat.repr k ++
        ") : une position ne se contracte pas avec elle-même"
  | .reused k => "position " ++ Nat.repr k ++ " utilisée deux fois"
  | .outOfChain k n =>
      "position " ++ Nat.repr k ++ " hors chaîne (" ++ Nat.repr n ++ " opérateurs)"

/-- The text of a term, appended to a fault that shows there. -/
def TermPlace.message (p : TermPlace) : String :=
  ", terme " ++ Nat.repr p.rank ++ " : " ++ p.monomial.latex

/-- The text of an error. -/
def Error.message : Error → String
  | .malformed fault => "expression malformée : " ++ fault.message
  | .divisionByZero => "division par zéro"
  | .invalidPattern fault place =>
      "motif de contraction invalide : " ++ fault.message ++
        (place.map TermPlace.message).getD ""

/-! ## Division -/

namespace Rational

/-- The quotient of two numbers. -/
def divide (a b : Rat) : Except Error Rat :=
  if b = 0 then .error .divisionByZero else .ok (a / b)

/-- The number with a given numerator and denominator, which need not be reduced or positive. -/
def ratio (n d : Int) : Except Error Rat :=
  divide n d

/-- The reciprocal of a number. -/
def inverse (a : Rat) : Except Error Rat :=
  divide 1 a

end Rational

/-- A constant given by numerator and denominator. -/
def Expr.fraction (n d : Int) : Except Error Expr :=
  (Rational.ratio n d).map const

/-! ## Chains of operators -/

namespace Expr

/-- The ordered product of a non-empty list of operators.  The first factor that is not an
operator is reported. -/
def chain (es : List Expr) : Except Error Expr :=
  if es.isEmpty then .error (.malformed .emptyChain)
  else match es.findIdx? fun e => !e.isOperator with
    | some k => .error (.malformed (.notOperator k))
    | none => .ok (product es)

end Expr

end SecondQuant
