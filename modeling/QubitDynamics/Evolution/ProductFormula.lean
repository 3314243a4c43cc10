import QubitDynamics.Evolution.Settings

/-! Evolution by product formulas. Each cluster of a Hamiltonian is merged and
exponentiated once. A step of first order applies the resulting gates in the
order of the clusters; a step of second order applies gates of half the duration
in that order and then in reverse. -/

namespace QubitDynamics

variable {K R : Type} [Zero K] [One K] [Add K] [Sub K] [Mul K] [Neg K] [Div K] [NatCast K] [ComplexScalar K R]
variable [Zero R] [One R] [Add R] [Neg R] [Div R] [NatCast R] [LT R] [DecidableLT R] [LE R] [DecidableLE R]
variable [RealScalar R]

/-- The gates of one step. -/
structure ProductFormula (K R : Type) where
  nqubits : Nat
  settings : Settings R
  gates : List (Gate K)

def applyGates (gates : List (Gate K)) (s : State K) : Except (DynamicsError R) (State K) :=
  (gates.foldlM (fun (s : State K) (g : Gate K) => g.apply s) s).mapError .term

/-- The number of steps of length `dt` that come closest to the total time. -/
def stepCount (total dt : R) : Except (DynamicsError R) Nat :=
  if !Settings.isDuration total then .error (.badTimeStep total)
  else match RealScalar.roundNat (total / dt) with
    | 0 => .error (.tooFewSteps 0)
    | n => .ok n

namespace ProductFormula

/-- Prepares the gates for a Hamiltonian with at least one term. -/
def prepare (h : Hamiltonian K) (settings : Settings R) : Except (DynamicsError R) (ProductFormula K R) := do
  settings.validate
  if h.terms.isEmpty then throw .emptyHamiltonian
  let slice := match settings.order with
    | .first => settings.dt
    | .second => settings.dt / (2 : Nat)
  return ⟨h.nqubits, settings, (← h.mergedTerms).map (·.expGate slice)⟩

def stepCount (f : ProductFormula K R) (total : R) : Except (DynamicsError R) Nat :=
  QubitDynamics.stepCount total f.settings.dt

def step (f : ProductFormula K R) (s : State K) : Except (DynamicsError R) (State K) :=
  match f.settings.order with
  | .first => applyGates f.gates s
  | .second => do applyGates f.gates.reverse (← applyGates f.gates s)

def steps (f : ProductFormula K R) : Nat → State K → Except (DynamicsError R) (State K)
  | 0, s => .ok s
  | n + 1, s => do f.steps n (← f.step s)

def evolve (f : ProductFormula K R) (s : State K) (total : R) : Except (DynamicsError R) (State K) := do
  f.steps (← f.stepCount total) s

end ProductFormula

end QubitDynamics
