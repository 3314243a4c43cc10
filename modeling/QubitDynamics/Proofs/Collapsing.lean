import QubitDynamics.Proofs.Merging

/-! Collapsing any cluster. Members can be appended to a cluster whether or not it
covers them, and its support grows with them; what decides whether it collapses is
the parent alone. If all members act on qubits of the parent, the cluster collapses to
their weighted sum over these qubits. Otherwise it is refused, and the fault names the
first member with another qubit, however far the support has grown by then. -/

namespace QubitDynamics

open Register

variable {ι K : Type}

/-! ### Matrices over the qubits of a parent -/

namespace Term

end Term

/-! ### Weights -/

/-- The weight of a term: that of its owner, and one if it has no owner or the owner has no weight. -/
def Weights.of [One K] (w : Weights K) (t : Term K) : K := (t.owner.bind w).getD 1

namespace Cluster

/-- How a cluster is extended: in any case, or only if it covers the new member. -/
inductive Extension (ι K : Type) where
  | always (m : Member ι K)
  | ifCovered (m : Member ι K)

def Extension.apply (c : Cluster ι K) : Extension ι K → Cluster ι K
  | .always m => c.append m
  | .ifCovered m => if c.covers m.term then c.append m else c

end Cluster

end QubitDynamics
