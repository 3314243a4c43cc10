import QubitDynamics.Hamiltonian.Basic

/-! Model Hamiltonians on closed chains of qubits. Neighbours are joined by bonds,
the last qubit with the first; a chain of two qubits has a single bond. -/

namespace QubitDynamics.Chain

variable {K R : Type} [Zero K] [One K] [Add K] [Mul K] [Neg K] [ComplexScalar K R]
variable [Zero R] [One R] [Neg R]

def bonds (n : Nat) : List (Nat × Nat) :=
  (List.range (n - 1)).map (fun i => (i, i + 1)) ++ if 2 < n then [(n - 1, 0)] else []

def pauliTerm (coefficient : R) (paulis : List (Pauli × Nat)) : Except (DynamicsError R) (Term K) :=
  (Term.ofFactors (ComplexScalar.ofReal coefficient)
    (paulis.map fun (p, q) => .symbol (.pauli p q))).mapError .term

/-- Refuses chains that are too short. -/
def ofTerms (id : OwnerId) (least n : Nat) (terms : List (R × List (Pauli × Nat))) :
    Except (DynamicsError R) (Hamiltonian K) := do
  if n < least then throw (.tooFewQubits least n)
  return .ofTerms id (← terms.mapM fun (c, paulis) => pauliTerm c paulis)

/-- The Ising chain in a transverse field: `-Σ Zᵢ Zᵢ₊₁ - h Σ Xᵢ`. -/
def ising (id : OwnerId) (n : Nat) (h : R) : Except (DynamicsError R) (Hamiltonian K) :=
  ofTerms id 2 n ((bonds n).map (fun (a, b) => (-1, [(.z, a), (.z, b)])) ++
    (List.range n).map fun q => (-h, [(.x, q)]))

/-- The anisotropic Heisenberg chain: `Σ Xᵢ Xᵢ₊₁ + Yᵢ Yᵢ₊₁ + Δ Zᵢ Zᵢ₊₁`. -/
def heisenberg (id : OwnerId) (n : Nat) (delta : R) : Except (DynamicsError R) (Hamiltonian K) :=
  ofTerms id 2 n ((bonds n).flatMap fun (a, b) =>
    [(1, [(.x, a), (.x, b)]), (1, [(.y, a), (.y, b)]), (delta, [(.z, a), (.z, b)])])

end QubitDynamics.Chain
