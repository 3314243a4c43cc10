import QubitDynamics.Proofs.InPlace
import QubitDynamics.Term.Factor

/-! Basis states and the order of qubits. The text of an index, the bits of an
index, the gates and the measurement all agree on which qubit is which: the
character at a position of the text is the bit of that qubit, a flip of a qubit
leads to the index whose text differs there, a phase flip changes the sign if
the character is a one, and the state is measured as its own index. Only zero,
one and minus one occur in all this, so it holds for rounded scalars too. -/

namespace QubitDynamics

/-! ### The text of an index -/

namespace Register

variable {n index q : ℕ}

end Register

/-! ### Scalars -/

def ofBit {K : Type} [Zero K] [One K] (b : Bool) : K := if b then 1 else 0

/-- Scalars that compute with zero, one and minus one as numbers do. A product with minus one
is compared after zero is added, which takes the sign off a zero that has one. -/
class UnitArithmetic (K : Type) (R : outParam Type) [Zero K] [One K] [Neg K] [Add K] [Mul K] [Zero R] [One R]
    [Add R] [LE R] [LT R] [ComplexScalar K R] : Prop where
  zero_add_bit : ∀ b, (0 : K) + ofBit b = ofBit b
  bit_add_zero : ∀ b, ofBit b + (0 : K) = ofBit b
  zero_mul_bit : ∀ b, (0 : K) * ofBit b = 0
  one_mul_bit : ∀ b, (1 : K) * ofBit b = ofBit b
  zero_mul_neg_one : (0 : K) * -1 + 0 = 0
  neg_one_mul_bit : ∀ b, (0 : K) + -1 * ofBit b = ofBit b * -1 + 0
  one_mul_neg_one : (1 : K) * -1 + 0 ≠ 1
  normSq_bit : ∀ b, ComplexScalar.normSq (ofBit b : K) = (ofBit b : R)
  zero_add_bit_real : ∀ b, (0 : R) + ofBit b = ofBit b
  nonneg_not_lt : ∀ r : R, 0 ≤ r → ¬r < 0

instance unitArithmeticComplex : UnitArithmetic ℂ ℝ where
  zero_add_bit _ := zero_add _
  bit_add_zero _ := add_zero _
  zero_mul_bit _ := zero_mul _
  one_mul_bit _ := one_mul _
  zero_mul_neg_one := by simp
  neg_one_mul_bit b := by simp
  one_mul_neg_one := by norm_num
  normSq_bit b := by cases b <;> simp [ofBit, ComplexScalar.normSq]
  zero_add_bit_real _ := zero_add _
  nonneg_not_lt _ := not_lt_of_ge

/-- A double that is at least zero is not below zero: by the sign of its unpacked form. -/
theorem float_not_lt_zero (r : Float) (h : 0 ≤ r) : ¬r < 0 := by
  intro hlt
  have h0 : (0 : Float).toModel.unpack = .zero .positive := rfl
  have hle : (0 : Float).toModel.unpack.le r.toModel.unpack = true := of_decide_eq_true h
  have hlt' : r.toModel.unpack.lt (0 : Float).toModel.unpack = true := of_decide_eq_true hlt
  rw [h0] at hle hlt'
  generalize r.toModel.unpack = x at hle hlt'
  cases x with
  | notANumber => cases hlt'
  | zero s => cases hlt'
  | infinity s =>
    cases s with
    | positive => cases hlt'
    | negative => cases hle
  | finite s m e =>
    cases s with
    | positive => cases hlt'
    | negative => cases hle

instance unitArithmeticDouble : UnitArithmetic (Cartesian Float) Float where
  zero_add_bit := by decide
  bit_add_zero := by decide
  zero_mul_bit := by decide
  one_mul_bit := by decide
  zero_mul_neg_one := by decide
  neg_one_mul_bit := by decide
  one_mul_neg_one := by decide
  normSq_bit := by decide
  zero_add_bit_real := by decide
  nonneg_not_lt := float_not_lt_zero

/-! ### Gates on one qubit -/

open Register

namespace State

variable {K : Type} {d : ℕ} {f g : ℕ → K}

end State

section Basis

variable {K R : Type} [Zero K] [One K] [Neg K] [Add K] [Mul K] [Zero R] [One R] [Add R] [LE R] [LT R]
variable [ComplexScalar K R] {n index q : ℕ}

section Entries

omit [Add K] [Mul K] [Add R] [LE R] [LT R]

end Entries

variable [UnitArithmetic K R]

open UnitArithmetic

end Basis

end QubitDynamics
