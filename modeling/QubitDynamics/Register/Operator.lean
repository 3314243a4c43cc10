import QubitDynamics.Register.State

/-! Operators on some qubits of a register. An operator on `k` targets is a
matrix of dimension `2 ^ k`. It acts on a register either through its embedding,
the matrix of the whole register that leaves the spectators alone, or directly
on the amplitudes of a state, which are overwritten block by block. -/

namespace QubitDynamics.Register

variable {K R : Type} [Zero K] [Add K] [Mul K] [ComplexScalar K R]

/-- An operator fits a register when its targets lie in it and its dimension is that of the
targets. -/
def checkFit (m : Mat K) (targets : List Nat) (n : Nat) : Except RegisterError Unit :=
  match targets.find? (n ≤ ·) with
  | some q => .error (.qubitOutOfRange q n)
  | none =>
    if m.rows ≠ dimension targets.length ∨ m.cols ≠ dimension targets.length then
      .error (.dimensionMismatch (dimension targets.length) m.rows)
    else .ok ()

/-- The matrix on all `n` qubits. An entry whose row and column differ in a spectator is zero. -/
def fullMatrix (m : Mat K) (targets : List Nat) (n : Nat) : Mat K :=
  Mat.ofFn (dimension n) (dimension n) fun row col =>
    if clear n targets row = clear n targets col then m.entry (gather n targets row) (gather n targets col)
    else 0

/-- The embedding of an operator that fits the register. -/
def embed (m : Mat K) (targets : List Nat) (n : Nat) : Except RegisterError (Mat K) := do
  checkFit m targets n
  return fullMatrix m targets n

/-- Multiplies the amplitudes of one spectator configuration by the operator. The amplitude of
index `i` is stored at `address i`. All of them are gathered before the first is overwritten. -/
def updateBlock (m : Mat K) (offsets : Array Nat) (address : Nat → Nat) (data : Array K) (base : Nat) :
    Array K :=
  let gathered := offsets.map fun o => data.getD (address (base ||| o)) 0
  (List.range offsets.size).foldl (fun data row =>
    data.setIfInBounds (address (base ||| offsets.getD row 0))
      (rangeSum offsets.size fun col => m.entry row col * gathered.getD col 0)) data

@[simp] theorem size_updateBlock (m : Mat K) (offsets : Array Nat) (address : Nat → Nat) (data : Array K)
    (base : Nat) : (updateBlock m offsets address data base).size = data.size := by
  unfold updateBlock
  generalize List.range offsets.size = rows
  generalize offsets.map _ = gathered
  induction rows generalizing data with
  | nil => rfl
  | cons row rows ih => rw [List.foldl_cons, ih, Array.size_setIfInBounds]

/-- Applies an operator in place, one spectator configuration after the other. The base of a
configuration is its index with zeros at the targets. -/
def applyInPlace (m : Mat K) (targets : List Nat) (n : Nat) (address : Nat → Nat) (data : Array K) :
    Array K :=
  let offsets := Array.ofFn fun sub : Fin (dimension targets.length) => scatter n targets sub
  (List.range (dimension n)).foldl (fun data base =>
    if base &&& mask n targets = 0 then updateBlock m offsets address data base else data) data

@[simp] theorem size_applyInPlace (m : Mat K) (targets : List Nat) (n : Nat) (address : Nat → Nat)
    (data : Array K) : (applyInPlace m targets n address data).size = data.size := by
  unfold applyInPlace
  generalize List.range (dimension n) = bases
  induction bases generalizing data with
  | nil => rfl
  | cons base bases ih =>
    rw [List.foldl_cons, ih]
    split <;> simp

/-- Applies an operator in place to one column of a matrix. -/
def applyToColumn (m : Mat K) (targets : List Nat) (n : Nat) (rho : Mat K) (j : Nat) : Mat K :=
  ⟨rho.rows, rho.cols, applyInPlace m targets n (fun i => i * rho.cols + j) rho.data,
    by rw [size_applyInPlace, rho.size_eq]⟩

def applyToColumns (m : Mat K) (targets : List Nat) (n : Nat) (rho : Mat K) : Mat K :=
  (List.range rho.cols).foldl (applyToColumn m targets n) rho

/-- Applies an operator to a state: `M ψ` for a vector, `M ρ M†` for a density matrix. The
latter is two sweeps over the columns, each followed by a conjugate transpose. -/
def apply (m : Mat K) (targets : List Nat) (s : State K) : Except RegisterError (State K) := do
  let n ← numQubits s.dim
  checkFit m targets n
  match s with
  | .vector v => return .vector (applyInPlace m targets n id v)
  | .density rho =>
    let once := (applyToColumns m targets n rho).conjTranspose
    return .density (applyToColumns m targets n once).conjTranspose

end QubitDynamics.Register
