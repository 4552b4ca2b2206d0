import SecondQuant.Expr.Algebra
import SecondQuant.Index.Context

/-!
# Building operators

The operators of the theory in normal order, with exact prefactors and fresh dummies.  Each
builder draws its indices from the context it runs on, so what is built on one context shares no
dummy.

* `Builder.normalOrdered` — the common shape: a tensor, creations in the order of its upper
  indices, annihilations in the reverse order of its lower indices, divided by the factorials of
  both counts.
* `Builder.excitation`, `Builder.cluster` — particle-hole operators of a signed rank.
* `Builder.hamiltonian`, `Builder.photonHamiltonian`, `Builder.electronPhotonCoupling` — the
  parts of the Hamiltonian, with their sums.
-/

namespace SecondQuant

/-- The product of the numbers from 1 to `n`. -/
def factorial : Nat → Nat
  | 0 => 1
  | n + 1 => (n + 1) * factorial n

namespace Builder

/-! ## The common shape -/

/-- The weight of a normal-ordered operator: one over the factorials of its numbers of creations
and annihilations. -/
def weight (creations annihilations : Nat) : Rat :=
  1 / (factorial creations * factorial annihilations : Nat)

/-- The symmetry of an amplitude with `n` indices; with at most two there is nothing to
exchange. -/
def amplitudeSymmetry (s : Statistics) (n : Nat) : Symmetry :=
  if n ≤ 2 then .plain
  else match s with
    | .fermion => .antisymmetric
    | .boson => .symmetric

/-- A normal-ordered operator on given indices. -/
def normalProduct (name : String) (s : Statistics) (cre ann : List Index) : Expr :=
  let amplitude := Expr.cNumber name cre ann (amplitudeSymmetry s (cre.length + ann.length))
  Expr.product <|
    [Expr.const (weight cre.length ann.length), amplitude] ++
      cre.map (Expr.creation s) ++ ann.reverse.map (Expr.annihilation s)

/-- A normal-ordered operator on fresh indices of given spaces. -/
def normalOrdered (name : String) (s : Statistics) (creations annihilations : List Space) :
    Drawing Expr := do
  let cre ← Drawing.drawEach creations
  let ann ← Drawing.drawEach annihilations
  return normalProduct name s cre ann

/-- The sum of a family of operators for the ranks 1 to `n`, built in this order. -/
def upTo (build : Nat → Drawing Expr) (n : Nat) : Drawing Expr := do
  let parts ← (List.range n).mapM fun k => build (k + 1)
  return Expr.total parts

/-! ## Particle-hole operators -/

/-- `n` particles created and `n` holes made; a negative rank is the adjoint of the positive one
and rank 0 the identity. -/
def particleHole (name : String) (n : Int) : Drawing Expr :=
  if n = 0 then return Expr.one
  else do
    let rank := n.natAbs
    let e ← normalOrdered name .fermion (List.replicate rank .virtual)
      (List.replicate rank .occupied)
    return if 0 < n then e else e.adjoint

/-- The excitation operator of a signed rank. -/
def excitation (n : Int) : Drawing Expr :=
  particleHole "A" n

/-- The cluster operator of a signed rank. -/
def cluster (n : Int) : Drawing Expr :=
  particleHole "t" n

/-- The adjoint of the cluster operator of a signed rank. -/
def clusterAdjoint (n : Int) : Drawing Expr :=
  Expr.adjoint <$> cluster n

/-- The sum of the cluster operators of the ranks 1 to `n`; it is 0 if `n` is not positive. -/
def clusterUpTo (n : Int) : Drawing Expr :=
  upTo (fun k => cluster k) n.toNat

/-! ## Hamiltonians -/

/-- The electronic Hamiltonian of `n` bodies over general indices; it is 0 for no body. -/
def hamiltonian : Nat → Drawing Expr
  | 0 => return Expr.zero
  | n + 1 =>
      let name := match n with | 0 => "f" | 1 => "g" | _ => "h"
      let spaces := List.replicate (n + 1) Space.general
      normalOrdered name .fermion spaces spaces

/-- The sum of the electronic Hamiltonians of 1 to `n` bodies. -/
def hamiltonianUpTo (n : Nat) : Drawing Expr :=
  upTo hamiltonian n

/-- The electronic Hamiltonian with one-body and two-body parts. -/
def electronicHamiltonian : Drawing Expr :=
  hamiltonianUpTo 2

/-- The photon Hamiltonian of `n` quanta; it is 0 for no quantum. -/
def photonHamiltonian : Nat → Drawing Expr
  | 0 => return Expr.zero
  | n + 1 =>
      let name := match n with | 0 => "ω" | _ => "w"
      let spaces := List.replicate (n + 1) Space.photon
      normalOrdered name .boson spaces spaces

/-- The sum of the photon Hamiltonians of 1 to `n` quanta. -/
def photonHamiltonianUpTo (n : Nat) : Drawing Expr :=
  upTo photonHamiltonian n

/-- An electron is scattered and emits a photon. -/
def emission (p q x : Index) : Expr :=
  Expr.product
    [Expr.cNumber "d" [p, x] [q] .plain, Expr.creation .fermion p, Expr.annihilation .fermion q,
      Expr.creation .boson x]

/-- An electron is scattered and absorbs a photon. -/
def absorption (p q x : Index) : Expr :=
  Expr.product
    [Expr.cNumber "d" [p] [q, x] .plain, Expr.creation .fermion p, Expr.annihilation .fermion q,
      Expr.annihilation .boson x]

/-- Emission and absorption of a photon, each with dummies of its own. -/
def electronPhotonCoupling : Drawing Expr := do
  let p ← Drawing.draw .general
  let q ← Drawing.draw .general
  let x ← Drawing.draw .photon
  let p' ← Drawing.draw .general
  let q' ← Drawing.draw .general
  let x' ← Drawing.draw .photon
  return emission p q x + absorption p' q' x'

/-- Electrons, photons and their coupling. -/
def coupledHamiltonian : Drawing Expr := do
  let electrons ← electronicHamiltonian
  let photons ← photonHamiltonian 1
  let coupling ← electronPhotonCoupling
  return Expr.total [electrons, photons, coupling]

end Builder

end SecondQuant
