import SecondQuant.Event

/-!
# The events of the builders

One event for each particle-hole operator, Hamiltonian part and coupling that a builder makes, in
the order in which they are made.  A bare normal-ordered operator reports nothing.
-/

namespace SecondQuant

namespace Builder

/-! ## Single operators -/

/-- The events of `excitation`. -/
def excitationEvents (n : Int) : List Event := [.excitation n]

/-- The events of `cluster`. -/
def clusterEvents (n : Int) : List Event := [.cluster n]

/-- The events of `clusterAdjoint`: those of the cluster operator it conjugates. -/
def clusterAdjointEvents (n : Int) : List Event := clusterEvents n

/-- The events of `hamiltonian`. -/
def hamiltonianEvents (n : Nat) : List Event := [.hamiltonian n]

/-- The events of `photonHamiltonian`. -/
def photonHamiltonianEvents (n : Nat) : List Event := [.photonHamiltonian n]

/-- The events of `electronPhotonCoupling`. -/
def electronPhotonCouplingEvents : List Event := [.electronPhotonCoupling]

/-! ## Sums -/

/-- The events of a family of operators for the ranks 1 to `n`. -/
def upToEvents (events : Nat → List Event) (n : Nat) : List Event :=
  (List.range n).flatMap fun k => events (k + 1)

/-- The events of `clusterUpTo`. -/
def clusterUpToEvents (n : Int) : List Event :=
  upToEvents (fun k => clusterEvents k) n.toNat

/-- The events of `hamiltonianUpTo`. -/
def hamiltonianUpToEvents (n : Nat) : List Event :=
  upToEvents hamiltonianEvents n

/-- The events of `electronicHamiltonian`. -/
def electronicHamiltonianEvents : List Event :=
  hamiltonianUpToEvents 2

/-- The events of `photonHamiltonianUpTo`. -/
def photonHamiltonianUpToEvents (n : Nat) : List Event :=
  upToEvents photonHamiltonianEvents n

/-- The events of `coupledHamiltonian`. -/
def coupledHamiltonianEvents : List Event :=
  electronicHamiltonianEvents ++ photonHamiltonianEvents 1 ++ electronPhotonCouplingEvents

end Builder

end SecondQuant
