import QubitDynamics.Term.Basic

/-! Merging a term into another whose qubits include its own. The matrix of the
child is widened by the identity on the missing qubits, its axes are brought
into the qubit order of the parent, and the result is added to the matrix of the
parent. -/

namespace QubitDynamics.Term

variable {K R : Type} [Zero K] [One K] [Add K] [Mul K]

/-- For each parent qubit the axis of the widened child that belongs to it: the position of the
qubit in the child, or the next unused axis from `next` on. -/
def axesFrom (child : List Nat) (next : Nat) : List Nat → List Nat
  | [] => []
  | q :: parent =>
    match child.idxOf? q with
    | some axis => axis :: axesFrom child next parent
    | none => next :: axesFrom child (next + 1) parent

/-- The row axes and then the column axes that bring a widened child into parent order. -/
def mergeAxes (child parent : List Nat) : List Nat :=
  let rows := axesFrom child child.length parent
  rows ++ rows.map (· + parent.length)

/-- The matrix of a child on the qubits `child`, as it acts on the qubits `parent`. -/
def widen? (m : Mat K) (child parent : List Nat) : Option (Mat K) := do
  let n := parent.length
  let widened := m.kron (.identity (Register.dimension (n - child.length)))
  let tensor ← widened.toTensor.reshape? (List.replicate (2 * n) 2)
  let permuted ← tensor.permute? (mergeAxes child parent)
  (← permuted.reshape? [Register.dimension n, Register.dimension n]).toMat?

/-- The sum of two terms as a dense term on the qubits of the parent. -/
def merge (parent child : Term K) : Except TermFault (Term K) :=
  if !child.qubits.all (parent.qubits.contains ·) then
    .error (.notNested child.qubits parent.qubits)
  else match widen? child.matrix child.qubits parent.qubits with
    | none => .error .incompatibleShapes
    | some m => .ok ⟨.dense parent.qubits (parent.matrix.add m), none⟩

end QubitDynamics.Term
