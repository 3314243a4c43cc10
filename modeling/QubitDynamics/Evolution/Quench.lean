import QubitDynamics.Evolution.ProductFormula

/-! Quenches: a state is evolved step by step under a Hamiltonian, and energy and
magnetizations are recorded before the first and after every step. -/

namespace QubitDynamics

variable {K R : Type} [Zero K] [One K] [Add K] [Sub K] [Mul K] [Neg K] [Div K] [NatCast K] [ComplexScalar K R]
variable [Zero R] [One R] [Add R] [Mul R] [Neg R] [Div R] [NatCast R] [LT R] [DecidableLT R] [LE R]
variable [DecidableLE R] [RealScalar R]

/-- Observables of a state: its energy and the means over all qubits of `Z` and of `X`. -/
structure Record (R : Type) where
  time : R
  energy : R
  magnetizationZ : R
  magnetizationX : R
  deriving DecidableEq, Repr

/-- A Hamiltonian with its step and the embedded one-qubit observables. -/
structure Quench (K R : Type) where
  hamiltonian : Hamiltonian K
  formula : ProductFormula K R
  zSites : List (Mat K)
  xSites : List (Mat K)

structure QuenchResult (K R : Type) where
  history : List (Record R)
  final : State K

namespace Quench

/-- A Pauli operator on each qubit of the register. -/
def sites (p : Pauli) (n : Nat) : Except (DynamicsError R) (List (Mat K)) :=
  ((List.range n).mapM fun q => Register.embed p.matrix [q] n).mapError .state

def prepare (h : Hamiltonian K) (settings : Settings R) : Except (DynamicsError R) (Quench K R) := do
  let formula ← ProductFormula.prepare h settings
  return ⟨h, formula, ← sites .z h.nqubits, ← sites .x h.nqubits⟩

/-- The mean of the real parts of the expectations, zero without observables. -/
def mean (observables : List (Mat K)) (s : State K) : Except (DynamicsError R) R :=
  if observables.isEmpty then .ok 0
  else do
    let total ← observables.foldlM (fun total o => do
      return total + ComplexScalar.re (← (s.expectation o).mapError DynamicsError.state)) 0
    return total / (observables.length : R)

def record (q : Quench K R) (time : R) (s : State K) : Except (DynamicsError R) (Record R) := do
  return ⟨time, ← q.hamiltonian.expectation s, ← mean q.zSites s, ← mean q.xSites s⟩

/-- The remaining `n` steps after `k` are done. Each new record is handed to `onStep`. -/
def continueRun {m : Type → Type} [Monad m] (q : Quench K R) (onStep : Record R → m Unit) (k : Nat) :
    Nat → List (Record R) → State K → ExceptT (DynamicsError R) m (QuenchResult K R)
  | 0, history, s => return ⟨history, s⟩
  | n + 1, history, s => do
    let s ← liftExcept (q.formula.step s)
    let record ← liftExcept (q.record ((k + 1 : Nat) * q.formula.settings.dt) s)
    onStep record
    q.continueRun onStep (k + 1) n (history ++ [record]) s
where
  liftExcept {α : Type} (x : Except (DynamicsError R) α) : ExceptT (DynamicsError R) m α := ExceptT.mk (pure x)

/-- Runs a quench for the total time, calling `onStep` after every step. All records are kept, however many there
are: memory is taken to be unbounded. -/
def run {m : Type → Type} [Monad m] (q : Quench K R) (onStep : Record R → m Unit) (s : State K) (total : R) :
    ExceptT (DynamicsError R) m (QuenchResult K R) := do
  let n ← ExceptT.mk (pure (q.formula.stepCount total))
  let first ← ExceptT.mk (pure (q.record 0 s))
  q.continueRun onStep 0 n [first] s

end Quench

end QubitDynamics
