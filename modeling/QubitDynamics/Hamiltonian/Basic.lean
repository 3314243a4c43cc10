import QubitDynamics.Expression.Monomial
import QubitDynamics.Term.Cluster

/-! Hamiltonians: sums of terms on a register. A Hamiltonian marks its terms with
its identity, so that clusters of terms from several Hamiltonians can weight each
of them. Its matrix, energy and action are those of the sum of its terms. -/

namespace QubitDynamics

/-- Why a Hamiltonian, or an evolution under one, is refused. -/
inductive DynamicsError (R : Type) where
  | emptyHamiltonian
  | qubitOutOfRange (qubit nqubits : Nat)
  | qubitCountMismatch (left right : Nat)
  | tooFewQubits (least given : Nat)
  | tooFewSteps (steps : Nat)
  | badTimeStep (dt : R)
  | expression (cause : ExpressionError)
  | term (cause : TermFault)
  | state (cause : RegisterError)
  deriving DecidableEq, Repr

def DynamicsError.message : DynamicsError Float → String
  | .emptyHamiltonian => "Hamiltonian is empty, nothing to evolve"
  | .qubitOutOfRange q n => s!"Hamiltonian term references qubit {q} but the register only has {n} qubits"
  | .qubitCountMismatch a b => s!"Qubit count mismatch: {a} vs {b}"
  | .tooFewQubits least given => s!"Model needs at least {least} qubits, got {given}"
  | .tooFewSteps n => s!"n_steps must be at least 1, got {n}"
  | .badTimeStep dt => "Time step must be positive and finite, got " ++ floatText dt
  | .expression (.fault p cause) => s!"Parse error at position {p}: " ++ cause.message
  | .expression (.unknownSymbol name) => "Unknown symbol '" ++ name ++ "'"
  | .term cause => "Term error: " ++ cause.message
  | .state cause => "State error: " ++ cause.message

/-- A sum of terms on a register of `nqubits` qubits. -/
structure Hamiltonian (K : Type) where
  id : OwnerId
  nqubits : Nat
  terms : List (Term K)

namespace Hamiltonian

variable {K R : Type} [Zero K] [One K] [Add K] [Mul K] [Neg K] [ComplexScalar K R]
variable [Zero R] [One R] [Neg R] [RealScalar R]

/-- The least register that holds all qubits of the terms. -/
def registerSize (terms : List (Term K)) : Nat :=
  (terms.flatMap Term.qubits).foldl (fun n q => max n (q + 1)) 0

/-- The sum of terms, which all become terms of the Hamiltonian `id`. -/
def ofTerms (id : OwnerId) (terms : List (Term K)) : Hamiltonian K :=
  ⟨id, registerSize terms, terms.map (·.withOwner id)⟩

def ofMonomials (id : OwnerId) (monomials : List (Monomial K)) : Except (DynamicsError R) (Hamiltonian K) := do
  let terms ← (monomials.mapM fun m => Term.ofFactors m.coefficient m.factors).mapError .term
  return ofTerms id terms

def parse (id : OwnerId) (table : SymbolTable K) (source : String) : Except (DynamicsError R) (Hamiltonian K) := do
  ofMonomials id (← (parseExpression table source).mapError .expression)

/-- The same sum on a register of `n` qubits, which may not be smaller. -/
def widen (h : Hamiltonian K) (n : Nat) : Except (DynamicsError R) (Hamiltonian K) :=
  if n < h.nqubits then .error (.qubitOutOfRange (h.nqubits - 1) n) else .ok { h with nqubits := n }

/-- The clusters of the terms, labelled by their place in the sum. -/
def clusters (h : Hamiltonian K) : List (Cluster Nat K) :=
  Cluster.partition (h.terms.zipIdx.map fun (t, i) => ⟨i, t⟩)

/-- One merged term per cluster. -/
def mergedTerms (h : Hamiltonian K) : Except (DynamicsError R) (List (Term K)) :=
  (h.clusters.mapM fun c : Cluster Nat K => c.merged.1).mapError .term

def matrixOfSum (terms : List (Term K)) (n : Nat) : Except (DynamicsError R) (Mat K) :=
  terms.foldlM (fun total t =>
    match t.qubits.find? (n ≤ ·) with
    | some q => .error (.qubitOutOfRange q n)
    | none => ((Register.embed t.matrix t.qubits n).map total.add).mapError .state)
    (.zero (Register.dimension n) (Register.dimension n))

def matrix (h : Hamiltonian K) : Except (DynamicsError R) (Mat K) := matrixOfSum h.terms h.nqubits

/-- The energy of a state: the real part of the sum of the expectations of the merged terms. -/
def expectation (h : Hamiltonian K) (s : State K) : Except (DynamicsError R) R := do
  let energy ← (← h.mergedTerms).foldlM (fun energy t => do
    let full ← (Register.embed t.matrix t.qubits h.nqubits).mapError DynamicsError.state
    let part ← (s.expectation full).mapError DynamicsError.state
    return energy + part) 0
  return ComplexScalar.re energy

/-- The sum of the states that the terms make of `s`. -/
def apply (h : Hamiltonian K) (s : State K) : Except (DynamicsError R) (State K) :=
  h.terms.foldlM (fun total t => do
    let part ← (t.apply s).mapError DynamicsError.term
    (total.add part).mapError DynamicsError.state) s.cleared

end Hamiltonian

end QubitDynamics
