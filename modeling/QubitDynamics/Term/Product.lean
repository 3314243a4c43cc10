import QubitDynamics.Register.Operator
import QubitDynamics.Term.Factor

/-! Products of one-qubit symbols. A product keeps its occurrences in the order in
which they are written, for application to states, and the same matrices sorted
by qubit, for its own matrix: on each qubit the local matrices are multiplied in
order, and the results are joined by Kronecker products in ascending order of
qubits. -/

namespace QubitDynamics

/-- A matrix with the qubits it acts on, the first being the most significant. -/
structure Gate (K : Type) where
  matrix : Mat K
  targets : List Nat
  deriving DecidableEq

def Gate.apply {K R : Type} [Zero K] [Add K] [Mul K] [ComplexScalar K R] (g : Gate K) (s : State K) :
    Except TermFault (State K) :=
  (Register.apply g.matrix g.targets s).mapError .state

/-- The local matrices on each qubit, qubits ascending. -/
abbrev Locals (K : Type) := List (Nat × List (Mat K))

/-- Adds matrices at the end of the list of qubit `q`. -/
def Locals.extend {K : Type} (q : Nat) (ms : List (Mat K)) : Locals K → Locals K
  | [] => [(q, ms)]
  | (p, ps) :: rest =>
    if q < p then (q, ms) :: (p, ps) :: rest
    else if q = p then (p, ps ++ ms) :: rest
    else (p, ps) :: Locals.extend q ms rest

/-- A product of symbols with its coefficient. The matrix is computed when it is first asked for. -/
structure Product (K : Type) where
  coefficient : K
  occurrences : List (Occurrence K)
  locals : Locals K
  matrix : Thunk (Mat K)

namespace Product

variable {K R : Type} [Zero K] [One K] [Add K] [Mul K] [Zero R] [One R] [ComplexScalar K R]

def assemble (coefficient : K) (locals : Locals K) : Mat K :=
  locals.foldl (fun acc entry =>
    match entry.2 with
    | [] => acc
    | first :: rest => acc.kron (rest.foldl Mat.mul first)) (.single coefficient)

def ofCoefficient (coefficient : K) : Product K :=
  ⟨coefficient, [], [], Thunk.mk fun _ => assemble coefficient []⟩

def absorb (p : Product K) : Contribution K → Product K
  | .scalar z =>
    let coefficient := p.coefficient * z
    ⟨coefficient, p.occurrences, p.locals, Thunk.mk fun _ => assemble coefficient p.locals⟩
  | .operator o count =>
    let locals := Locals.extend o.qubit (List.replicate count o.matrix) p.locals
    ⟨p.coefficient, p.occurrences ++ List.replicate count o, locals,
      Thunk.mk fun _ => assemble p.coefficient locals⟩

/-- The product of factors in the order in which they are written. -/
def ofFactors (coefficient : K) (factors : List (Factor K)) : Except TermFault (Product K) := do
  let contributions ← factors.mapM Factor.contribution
  return contributions.foldl absorb (ofCoefficient coefficient)

def qubits (p : Product K) : List Nat := p.locals.map Prod.fst

/-- The product times `k`; its matrix is `k` times the matrix of `p`. -/
def scaled (k : K) (p : Product K) : Product K :=
  ⟨p.coefficient * k, p.occurrences, p.locals, Thunk.mk fun _ => p.matrix.get.scale k⟩

/-- Applies the occurrences one after the other in written order, then the coefficient. -/
def apply (p : Product K) (s : State K) : Except TermFault (State K) := do
  let s ← p.occurrences.foldlM (fun s o => (Gate.mk o.matrix [o.qubit]).apply s) s
  return s.scale p.coefficient

end Product

end QubitDynamics
