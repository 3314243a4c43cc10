import Mathlib.Analysis.SpecialFunctions.Log.Base
import Mathlib.LinearAlgebra.Matrix.ConjTranspose
import QubitDynamics.Proofs.MatrixView

/-! Exact scalars: the real numbers, and the complex numbers over them. Decimals
denote themselves, every number is finite and nothing is rounded but where a
natural number is asked for. The conjugate of a scalar, and of a matrix, is then
that of linear algebra. -/

namespace QubitDynamics

noncomputable def Decimal.toReal (d : Decimal) : ℝ := d.digits * (10 : ℝ) ^ d.exponent

noncomputable instance : RealScalar ℝ where
  ofDecimal := Decimal.toReal
  sqrt := Real.sqrt
  isFinite _ := true
  roundNat x := min ⌊x + 1 / 2⌋₊ (UInt64.size - 1)
  ceilLog2 x := ⌈Real.logb 2 x⌉₊

noncomputable instance : ComplexScalar ℂ ℝ where
  ofParts := Complex.mk
  re := Complex.re
  conj := star
  scaleReal z x := z * x
  abs z := ‖z‖
  normSq := Complex.normSq
  exp := Complex.exp

@[simp] theorem ofDecimal_eq (d : Decimal) : (RealScalar.ofDecimal d : ℝ) = d.toReal := rfl

@[simp] theorem conj_eq_star (z : ℂ) : ComplexScalar.conj z = star z := rfl

@[simp] theorem scaleReal_eq (z : ℂ) (x : ℝ) : ComplexScalar.scaleReal z x = z * x := rfl

@[simp] theorem unit_eq_I : (ComplexScalar.unit : ℂ) = Complex.I := rfl

theorem ComplexScalar.abs_le_zero_iff (z : ℂ) : ComplexScalar.abs z ≤ (0 : ℝ) ↔ z = 0 := norm_le_zero_iff

namespace Mat

theorem HasShape.conjTranspose {K R : Type} [Zero K] [ComplexScalar K R] {r c : ℕ} {a : Mat K} (ha : a.HasShape r c) :
    a.conjTranspose.HasShape c r := ⟨ha.cols, ha.rows⟩

theorem toMatrix_conjTranspose {r c : ℕ} {a : Mat ℂ} (ha : a.HasShape r c) :
    a.conjTranspose.toMatrix c r = (a.toMatrix r c).conjTranspose := by
  obtain ⟨rfl, rfl⟩ := ha
  rw [Mat.conjTranspose, toMatrix_ofFn]
  rfl

end Mat

end QubitDynamics
