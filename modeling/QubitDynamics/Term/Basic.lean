import QubitDynamics.Linear.Exponential
import QubitDynamics.Term.Product

/-! Terms of a Hamiltonian. A term acts on an ordered list of qubits, either by a
dense matrix or as a product of symbols, and may carry the identity of the
Hamiltonian that owns it. -/

namespace QubitDynamics

structure OwnerId where
  index : Nat
  deriving DecidableEq, Repr

/-- How a term acts. The first qubit is the most significant factor of a dense matrix. -/
inductive Action (K : Type) where
  | dense (qubits : List Nat) (matrix : Mat K)
  | product (p : Product K)

/-- An operator on some qubits, with the Hamiltonian it belongs to. -/
structure Term (K : Type) where
  action : Action K
  owner : Option OwnerId

/-- Qubit numbers are not negative and do not repeat; the first fault in the list is reported. -/
def checkQubits (qubits : List Int) : Except TermFault (List Nat) :=
  go [] qubits
where
  go (seen : List Nat) : List Int → Except TermFault (List Nat)
    | [] => .ok seen
    | q :: rest =>
      if q < 0 then .error (.invalidQubit q)
      else if q.toNat ∈ seen then .error (.duplicateQubit q.toNat)
      else go (seen ++ [q.toNat]) rest

namespace Term

variable {K R : Type} [Zero K] [One K] [Add K] [Sub K] [Mul K] [Div K] [NatCast K] [ComplexScalar K R]
variable [Zero R] [One R] [Add R] [Neg R] [Div R] [LT R] [DecidableLT R] [LE R] [DecidableLE R] [RealScalar R]

/-- The dense term of a value on the given qubits. A scalar is a matrix with one entry. -/
def ofValue (value : Value K) (qubits : List Int) : Except TermFault (Term K) := do
  let targets ← checkQubits qubits
  let matrix ← match value with
    | .scalar z => .ok (Mat.single z)
    | .tensor t =>
      if !t.isOperator then .error (.notOperator t.shape)
      else match t.toMat? with
        | none => .error .incompatibleShapes
        | some m => .ok m
  if matrix.rows ≠ Nat.pow 2 targets.length then throw (.dimensionMismatch matrix.rows targets.length)
  return ⟨.dense targets matrix, none⟩

def ofFactors (coefficient : K) (factors : List (Factor K)) : Except TermFault (Term K) := do
  return ⟨.product (← Product.ofFactors coefficient factors), none⟩

/-- The qubits in the order of the matrix. -/
def qubits (t : Term K) : List Nat :=
  match t.action with
  | .dense qubits _ => qubits
  | .product p => p.qubits

def arity (t : Term K) : Nat := t.qubits.length

def matrix (t : Term K) : Mat K :=
  match t.action with
  | .dense _ m => m
  | .product p => p.matrix.get

def product? (t : Term K) : Option (Product K) :=
  match t.action with
  | .dense _ _ => none
  | .product p => some p

def withOwner (t : Term K) (id : OwnerId) : Term K := { t with owner := some id }

/-- The term times `k`. The result belongs to no Hamiltonian. -/
def scaled (k : K) (t : Term K) : Term K :=
  match t.action with
  | .dense qubits m => ⟨.dense qubits (m.scale k), none⟩
  | .product p => ⟨.product (p.scaled k), none⟩

def gate (t : Term K) : Gate K := ⟨t.matrix, t.qubits⟩

/-- The matrix `exp (-i x M)` of a term with matrix `M`. -/
def exp (t : Term K) (x : R) : Mat K :=
  (t.matrix.scale (ComplexScalar.ofParts 0 (-x))).exponential

def expGate (t : Term K) (x : R) : Gate K := ⟨t.exp x, t.qubits⟩

/-- Applies the matrix of a dense term, and a product factor by factor. -/
def apply (t : Term K) (s : State K) : Except TermFault (State K) :=
  match t.action with
  | .dense qubits m => (Gate.mk m qubits).apply s
  | .product p => p.apply s

end Term

end QubitDynamics
