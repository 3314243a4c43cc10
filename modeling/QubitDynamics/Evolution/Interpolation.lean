import QubitDynamics.Evolution.ProductFormula

/-! Interpolation between two Hamiltonians, `(1 - s) · start + s · final`. The terms
of both are clustered once; at each `s` the clusters are collapsed with every
member weighted according to its owner. -/

namespace QubitDynamics

variable {K R : Type} [Zero K] [One K] [Add K] [Sub K] [Mul K] [Neg K] [Div K] [NatCast K] [ComplexScalar K R]
variable [Zero R] [One R] [Add R] [Sub R] [Neg R] [Div R] [NatCast R] [LT R] [DecidableLT R] [LE R]
variable [DecidableLE R] [RealScalar R]

/-- Which end of an interpolation a term comes from. -/
inductive Side where
  | start
  | final
  deriving DecidableEq, Repr

/-- Two Hamiltonians on one register with the clusters of all their terms. -/
structure Interpolation (K : Type) where
  start : Hamiltonian K
  final : Hamiltonian K
  clusters : List (Cluster (Side × Nat) K)

namespace Interpolation

/-- The terms of one side, labelled by their place in the sum. -/
def members (side : Side) (h : Hamiltonian K) : List (Member (Side × Nat) K) :=
  h.terms.zipIdx.map fun (t, i) => ⟨(side, i), t⟩

/-- The registers are of one size and some term is there to evolve under. -/
def between (start final : Hamiltonian K) : Except (DynamicsError R) (Interpolation K) :=
  if start.nqubits ≠ final.nqubits then .error (.qubitCountMismatch start.nqubits final.nqubits)
  else if start.terms.isEmpty && final.terms.isEmpty then .error .emptyHamiltonian
  else .ok ⟨start, final, Cluster.partition (members .start start ++ members .final final)⟩

def nqubits (p : Interpolation K) : Nat := p.start.nqubits

def weights (p : Interpolation K) (s : R) : Weights K := fun id =>
  if id = p.final.id then some (ComplexScalar.ofReal s)
  else if id = p.start.id then some (ComplexScalar.ofReal (1 - s))
  else none

def mergedTerms (p : Interpolation K) (s : R) : Except (DynamicsError R) (List (Term K)) :=
  (p.clusters.mapM fun c : Cluster (Side × Nat) K => c.collapse (p.weights s)).mapError .term

/-- One step of length `dt` under the interpolated Hamiltonian at `s`. -/
def step (p : Interpolation K) (dt s : R) (state : State K) : Except (DynamicsError R) (State K) := do
  applyGates ((← p.mergedTerms s).map (·.expGate dt)) state

/-- The midpoint of step `k` of `n`, as a fraction of the total time. -/
def midpoint (n k : Nat) : R := ((k : R) + RealScalar.ofDecimal ⟨5, -1⟩) / (n : R)

/-- The last `remaining` of `n` equal steps that fill the total time. In each step the schedule is
taken at the midpoint. -/
def steps (p : Interpolation K) (schedule : R → R) (total : R) (n : Nat) :
    Nat → State K → Except (DynamicsError R) (State K)
  | 0, state => .ok state
  | remaining + 1, state => do
    let s := schedule (midpoint n (n - (remaining + 1)))
    p.steps schedule total n remaining (← p.step (total / (n : R)) s state)

/-- Evolves for the total time in first order steps as close to `dt` as divide it evenly. -/
def evolve (p : Interpolation K) (state : State K) (schedule : R → R) (total dt : R) :
    Except (DynamicsError R) (State K) := do
  if !Settings.isDuration dt then throw (.badTimeStep dt)
  let n ← stepCount total dt
  p.steps schedule total n n state

end Interpolation

end QubitDynamics
