import QubitDynamics.Linear.Mat
import QubitDynamics.Register.Index

/-! States of a qubit register, pure or mixed, with their observables. A pure
state is its vector of amplitudes and a mixed state its density matrix, both in
the order of basis indices. -/

namespace QubitDynamics

/-- Why an operator and a state, or two states, do not fit together. -/
inductive RegisterError where
  | qubitOutOfRange (qubit nqubits : Nat)
  | dimensionMismatch (expected actual : Nat)
  | notPowerOfTwo (dim : Nat)
  | mixedKinds
  deriving DecidableEq, Repr

def RegisterError.message : RegisterError → String
  | .qubitOutOfRange q n => s!"Qubit {q} out of range for a {n}-qubit state"
  | .dimensionMismatch e a => s!"Dimension mismatch: expected {e}, got {a}"
  | .notPowerOfTwo d => s!"State dimension {d} is not a power of two"
  | .mixedKinds => "State kind mismatch: cannot add a state vector and a density matrix"

/-- A pure state by its amplitudes, or a mixed one by its density matrix. -/
inductive State (K : Type) where
  | vector (amplitudes : Array K)
  | density (matrix : Mat K)
  deriving DecidableEq

/-- The number of qubits whose register has dimension `dim`. -/
def numQubits (dim : Nat) : Except RegisterError Nat :=
  if dim = Nat.pow 2 dim.log2 then .ok dim.log2 else .error (.notPowerOfTwo dim)

namespace State

variable {K R : Type}

def dim : State K → Nat
  | vector v => v.size
  | density m => m.rows

def isDensity : State K → Bool
  | vector _ => false
  | density _ => true

def ofAmplitudes (dim : Nat) (f : Nat → K) : State K :=
  vector (Array.ofFn fun i : Fin dim => f i)

def zero [Zero K] [One K] (n : Nat) : State K :=
  ofAmplitudes (Register.dimension n) fun i => if i = 0 then 1 else 0

/-- All basis states with equal amplitude. -/
def plus [Zero R] [One R] [Div R] [NatCast R] [RealScalar R] [ComplexScalar K R] (n : Nat) : State K :=
  let dim := Register.dimension n
  let amplitude : K := ComplexScalar.ofReal (1 / RealScalar.sqrt (dim : R))
  ofAmplitudes dim fun _ => amplitude

/-- The projector on a pure state; a mixed state is kept. -/
def toDensity [Zero K] [Mul K] [ComplexScalar K R] : State K → State K
  | vector v => density (Mat.ofFn v.size v.size fun i j => v.getD i 0 * ComplexScalar.conj (v.getD j 0))
  | density m => density m

def scale [Zero K] [Mul K] (k : K) : State K → State K
  | vector v => vector (v.map (· * k))
  | density m => density (m.scale k)

/-- The state of the same kind and dimension with all entries zero. -/
def cleared [Zero K] : State K → State K
  | vector v => ofAmplitudes v.size fun _ => 0
  | density m => density (Mat.zero m.rows m.rows)

/-- Entrywise sum of two states of one kind and dimension. -/
def add [Zero K] [Add K] (a b : State K) : Except RegisterError (State K) :=
  if a.dim ≠ b.dim then .error (.dimensionMismatch a.dim b.dim)
  else match a, b with
    | vector x, vector y => .ok (ofAmplitudes x.size fun i => x.getD i 0 + y.getD i 0)
    | density x, density y => .ok (density (x.add y))
    | _, _ => .error .mixedKinds

/-- The chance of each basis index. Those of a density matrix are its diagonal. -/
def probabilities [Zero K] [ComplexScalar K R] : State K → List R
  | vector v => v.toList.map ComplexScalar.normSq
  | density m => (List.range (min m.rows m.cols)).map fun i => ComplexScalar.re (m.entry i i)

/-- The squared norm of a vector, the trace of a density matrix. -/
def normSq [Zero K] [ComplexScalar K R] [Zero R] [Add R] (s : State K) : R :=
  s.probabilities.foldl (· + ·) 0

/-- `⟨ψ|O|ψ⟩` for a vector and `Tr (O ρ)` for a density matrix. -/
def expectation [Zero K] [One K] [Add K] [Mul K] [ComplexScalar K R] (observable : Mat K) (s : State K) :
    Except RegisterError K :=
  if observable.rows ≠ s.dim ∨ observable.cols ≠ s.dim then
    .error (.dimensionMismatch s.dim observable.rows)
  else match s with
    | vector v =>
      let image := observable.mul (.column v)
      .ok (rangeSum v.size fun i => ComplexScalar.conj (v.getD i 0) * image.entry i 0)
    | density m => .ok (observable.mul m).trace

end State

/-- The first index at which the running sum of `chances` exceeds `r`, counted from `i` and
summed from `sum`. -/
def firstAbove {R : Type} [Add R] [LT R] [DecidableLT R] (r : R) : R → Nat → List R → Option Nat
  | _, _, [] => none
  | sum, i, p :: chances => if r < sum + p then some i else firstAbove r (sum + p) (i + 1) chances

/-- The outcome that the uniform number `r` selects. Should the chances add up to no more than
`r`, the last outcome is taken. -/
def outcome {R : Type} [Zero R] [Add R] [LT R] [DecidableLT R] (chances : List R) (r : R) : Nat :=
  (firstAbove r 0 0 chances).getD (chances.length - 1)

def State.sample {K R : Type} [Zero K] [ComplexScalar K R] [Zero R] [Add R] [LT R] [DecidableLT R]
    (s : State K) (r : R) : Nat :=
  outcome s.probabilities r

/-- The uniform number in `[0, 1)` given by the upper fifty-three bits of a random word. -/
def uniformOfWord {R : Type} [NatCast R] [Div R] (word : Nat) : R :=
  (word >>> 11 : Nat) / (1 <<< 53 : Nat)

end QubitDynamics
