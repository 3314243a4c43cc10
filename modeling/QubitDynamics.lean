import QubitDynamics.Evolution.Interpolation
import QubitDynamics.Evolution.Quench
import QubitDynamics.Evolution.SettingsJson
import QubitDynamics.Hamiltonian.Chain
import QubitDynamics.Number.Rounded
import QubitDynamics.Proofs.Loops
import QubitDynamics.Proofs.Embedding
import QubitDynamics.Proofs.ExactScalar
import QubitDynamics.Proofs.InPlace
import QubitDynamics.Proofs.FirstFit
import QubitDynamics.Proofs.Clustering
import QubitDynamics.Proofs.Widening
import QubitDynamics.Proofs.Merging
import QubitDynamics.Proofs.MergedEntries
import QubitDynamics.Proofs.Remembering
import QubitDynamics.Proofs.Grammar
import QubitDynamics.Proofs.Lexing
import QubitDynamics.Proofs.Spans
import QubitDynamics.Proofs.ProductMatrix
import QubitDynamics.Proofs.PauliTerms
import QubitDynamics.Proofs.Scaling
import QubitDynamics.Proofs.Acceptance
import QubitDynamics.Proofs.Compilation
import QubitDynamics.Proofs.Interpolating
import QubitDynamics.Proofs.Reachability
import QubitDynamics.Proofs.StateAction
import QubitDynamics.Proofs.Elimination
import QubitDynamics.Proofs.Approximant
import QubitDynamics.Proofs.StepOperator
import QubitDynamics.Proofs.QuenchRun
import QubitDynamics.Proofs.PauliChain
import QubitDynamics.Proofs.Symmetry
import QubitDynamics.Proofs.Magnetization
import QubitDynamics.Proofs.Collapsing
import QubitDynamics.Proofs.WrittenOrder
import QubitDynamics.Proofs.HamiltonianAction
import QubitDynamics.Proofs.NilpotentExponential
import QubitDynamics.Proofs.Halving
import QubitDynamics.Proofs.OppositeExponential
import QubitDynamics.Proofs.Pivoting
import QubitDynamics.Proofs.EmbeddedAlgebra
import QubitDynamics.Proofs.LocalExponential
import QubitDynamics.Proofs.FirstFault
import QubitDynamics.Proofs.Joining
import QubitDynamics.Proofs.Energy
import QubitDynamics.Proofs.AdmissibleFactors
import QubitDynamics.Proofs.ChainMatrices
import QubitDynamics.Proofs.TrailingQubits
import QubitDynamics.Proofs.QuenchHistory
import QubitDynamics.Proofs.Sampling
import QubitDynamics.Proofs.BasisStates
import QubitDynamics.Proofs.CheckedAccess
import QubitDynamics.Proofs.SymbolNames
import QubitDynamics.Proofs.KroneckerLaws
