import QubitDynamics.Proofs.Merging

/-! The entries of a merged term. Rows and columns are indices whose bits belong to
the qubits of the parent, in its order. The child adds its own entry where row and
column agree at every qubit it does not act on, at the row and the column that the
bits of its qubits make up in its own order, whatever these two orders are. -/

namespace QubitDynamics

variable {K : Type}

namespace Register

/-! ### Indices over named qubits -/

/-- The bit of qubit `q` in an index over the qubits `space`, the first of which is most significant. -/
def qubitBit (space : List ℕ) (index q : ℕ) : Bool := index.testBit (space.length - 1 - space.idxOf q)

/-- The bits of the given qubits in an index over `space`, read as a number, first qubit most significant. -/
def reading (space qubits : List ℕ) (index : ℕ) : ℕ :=
  qubits.foldl (fun acc q => 2 * acc + (qubitBit space index q).toNat) 0

end Register

namespace Term

open Register

end Term

end QubitDynamics
