import SecondQuant.Expr.Latex

/-!
# Events

The library's operations report what they do as events.  The functions that compute a result say
nothing; beside each of them stands one that lists its events.

* `Event.level`, `Event.message` — how an event appears in a log.
-/

namespace SecondQuant

/-- How detailed an event is. -/
inductive Level where
  | info
  | debug
  | trace
  deriving DecidableEq

/-- Something worth recording about a computation. -/
inductive Event where
  /-- An excitation operator of this rank is built. -/
  | excitation (rank : Int)
  /-- A cluster operator of this rank is built. -/
  | cluster (rank : Int)
  /-- The electronic Hamiltonian of this many bodies is built. -/
  | hamiltonian (bodies : Nat)
  /-- The photon Hamiltonian of this many quanta is built. -/
  | photonHamiltonian (quanta : Nat)
  /-- The coupling of electrons and photons is built. -/
  | electronPhotonCoupling
  /-- A pair cannot be contracted because of its statistics or actions. -/
  | incompatibleRoles (left right : Nat)
  /-- A pair cannot be contracted because its indices have no state in common. -/
  | disjointSpaces (left right : Nat)
  /-- The term of this rank vanishes under a pattern. -/
  | termVanishes (rank : Nat)
  /-- The term of this rank has this value under a pattern. -/
  | termValue (rank : Nat) (value : Expr)
  /-- A contraction is complete. -/
  | contracted (pairs terms vanished : Nat)
  /-- A delta is eliminated, with this many indices renamed. -/
  | deltaEliminated (factor : Expr) (renamed : Nat)
  /-- An antisymmetric tensor of this name is expanded into this many terms. -/
  | expanded (name : String) (terms : Nat)

namespace Event

/-- The level of an event. -/
def level : Event → Level
  | contracted .. => .info
  | deltaEliminated .. => .trace
  | _ => .debug

/-- A text between parentheses. -/
def parenthesised (s : String) : String :=
  "(" ++ s ++ ")"

/-- A pair of positions. -/
def pairText (left right : Nat) : String :=
  parenthesised (Nat.repr left ++ ", " ++ Nat.repr right)

/-- The text of an event. -/
def message : Event → String
  | excitation n => "excitation" ++ parenthesised (intText n)
  | cluster n => "cluster" ++ parenthesised (intText n)
  | hamiltonian n => "hamiltonien" ++ parenthesised (Nat.repr n)
  | photonHamiltonian n => "hamiltonien_bosonique" ++ parenthesised (Nat.repr n)
  | electronPhotonCoupling => "couplage_electron_photon"
  | incompatibleRoles g d => "paire " ++ pairText g d ++ " : rôles incompatibles"
  | disjointSpaces g d => "paire " ++ pairText g d ++ " : espaces disjoints"
  | termVanishes k => "terme " ++ Nat.repr k ++ " : contraction nulle"
  | termValue k e => "terme " ++ Nat.repr k ++ " : " ++ e.latex
  | contracted p t v =>
      "contraction : " ++ Nat.repr p ++ " paires, " ++ Nat.repr t ++ " termes, " ++ Nat.repr v ++
        " nuls"
  | deltaEliminated f n =>
      "élimination δ : " ++ f.latex ++ " " ++ parenthesised (Nat.repr n ++ " renommage(s)")
  | expanded name n => "développement de " ++ name ++ " : " ++ Nat.repr n ++ " termes"

end Event

end SecondQuant
