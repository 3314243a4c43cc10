/-! Basis indices of a qubit register. An index of `n` qubits is a word whose bit
`n - 1 - q` belongs to qubit `q`, so that qubit 0 is most significant. An operator
on a list of target qubits sees of an index only the bits of its targets, first
target most significant; the other qubits are its spectators.

Words have sixty-four bits and shifts take their amount modulo that width. Below
sixty-four qubits nothing of this shows; a larger register has too few indices,
and qubits that are sixty-four apart share a bit. -/

namespace QubitDynamics

namespace Word

/-- The word `1` shifted left. -/
def power (amount : Nat) : Nat := Nat.pow 2 (amount % 64)

/-- The last bit of a word shifted right. -/
def testBit (word amount : Nat) : Bool := word.testBit (amount % 64)

/-- The next word; after the largest one comes zero. -/
def succ (word : Nat) : Nat := (word + 1) % (1 <<< 64)

end Word

namespace Register

/-- The number of basis indices of `n` qubits. -/
def dimension (n : Nat) : Nat := Word.power n

/-- The bits of the targets in `index`, read as a number. -/
def gather (n : Nat) : List Nat → Nat → Nat
  | [], _ => 0
  | q :: targets, index =>
    (if Word.testBit index (n - 1 - q) then Word.power targets.length else 0) ||| gather n targets index

/-- The index that has the bits of `sub` at the targets and zeros elsewhere. A target that is
listed twice has its bit set when either of its two bits is set. -/
def scatter (n : Nat) : List Nat → Nat → Nat
  | [], _ => 0
  | q :: targets, sub =>
    (if Word.testBit sub targets.length then Word.power (n - 1 - q) else 0) ||| scatter n targets sub

/-- The index with ones exactly at the targets. -/
def mask (n : Nat) : List Nat → Nat
  | [] => 0
  | q :: targets => Word.power (n - 1 - q) ||| mask n targets

/-- The index with the bits of the targets cleared. -/
def clear (n : Nat) (targets : List Nat) (index : Nat) : Nat :=
  (index ||| mask n targets) ^^^ mask n targets

end Register

end QubitDynamics
