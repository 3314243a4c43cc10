import QubitDynamics.Register.State

/-! The ways in which terms are refused. -/

namespace QubitDynamics

inductive TermFault where
  | invalidQubit (qubit : Int)
  | duplicateQubit (qubit : Nat)
  /-- A matrix of dimension `dim` does not act on `nqubits` qubits. -/
  | dimensionMismatch (dim nqubits : Nat)
  /-- A tensor of this shape is no operator. -/
  | notOperator (shape : List Nat)
  | unreadableFactor (text : String)
  /-- The child acts on a qubit that the parent does not act on. -/
  | notNested (child parent : List Nat)
  | incompatibleShapes
  | state (cause : RegisterError)
  deriving DecidableEq, Repr

def listText (xs : List Nat) : String :=
  "[" ++ ", ".intercalate (xs.map toString) ++ "]"

def TermFault.message : TermFault → String
  | .invalidQubit q => s!"Invalid qubit id {q} < 0 was given in Hamiltonian term"
  | .duplicateQubit q => s!"Qubit {q} appears more than once in Hamiltonian term"
  | .dimensionMismatch dim n =>
    s!"Matrix dimension {dim} given in Hamiltonian term is not compatible with the number of target qubits {n}"
  | .notOperator shape => "Invalid type of term matrix: tensor of shape " ++ listText shape
  | .unreadableFactor text => "Cannot parse factor " ++ text
  | .notNested child parent =>
    "Cannot merge term acting on qubits " ++ listText child ++ " to term on qubits " ++ listText parent
  | .incompatibleShapes => "Tensor shape error: ShapeError/IncompatibleShape: incompatible shapes"
  | .state cause => "State application failed: " ++ cause.message

end QubitDynamics
