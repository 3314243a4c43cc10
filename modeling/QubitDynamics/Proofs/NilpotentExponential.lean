import Mathlib.RingTheory.Nilpotent.Exp
import Mathlib.RingTheory.PowerSeries.Exp
import Mathlib.RingTheory.PowerSeries.Trunc
import QubitDynamics.Proofs.Approximant

/-! The order of the rational approximant of the exponential. For numerator `N` and
denominator `D` of each convergent, the series `D exp - N` obeys the recurrence of
the convergents, and its coefficients have a closed form: they vanish up to the power
`2 * m`. So the thirteenth convergent agrees with the exponential through order
twenty-six. At a matrix `A` with `A ^ 27 = 0` the denominator is invertible and the
approximant equals the exponential series, which ends there; halving and squaring
cancel, since the exponential of a sum of commuting nilpotent matrices is a product. -/

namespace QubitDynamics.Mat

/-! ### The error of the convergents -/

section Order

open Polynomial

variable (K : Type) [Field K]

/-- What is left of the error of the convergent `m` when `X ^ (2 * m + 1)` is taken out. -/
noncomputable def defect (m : ℕ) : PowerSeries K :=
  .mk fun j => (-1) ^ m * ((m + j).factorial : K) / ((j.factorial : K) * ((2 * m + 1 + j).factorial : K))

theorem coeff_defect (m j : ℕ) :
    (defect K m).coeff j =
      (-1) ^ m * ((m + j).factorial : K) / ((j.factorial : K) * ((2 * m + 1 + j).factorial : K)) :=
  PowerSeries.coeff_mk _ _

variable [CharZero K]

theorem cast_factorial_ne_zero (n : ℕ) : (n.factorial : K) ≠ 0 := Nat.cast_ne_zero.2 n.factorial_ne_zero

/-- The next defect, before two powers of `X` are taken out of it. -/
theorem coeff_defect_step (m k : ℕ) :
    ((4 * m + 6 : ℕ) : K) * (defect K (m + 1)).coeff k + (defect K m).coeff k =
      (-1) ^ m * ((m + k).factorial : K) * (k * (k - 1)) / ((k.factorial : K) * ((2 * m + 3 + k).factorial : K)) := by
  have hup : ((m + 1 + k).factorial : K) = (m + k + 1) * ((m + k).factorial : K) := by
    rw [show m + 1 + k = m + k + 1 by omega, Nat.factorial_succ]
    push_cast
    ring
  have hdown : ((2 * m + 3 + k).factorial : K) =
      (2 * m + 3 + k) * ((2 * m + 2 + k) * ((2 * m + 1 + k).factorial : K)) := by
    rw [show 2 * m + 3 + k = 2 * m + 1 + k + 1 + 1 by omega, Nat.factorial_succ, Nat.factorial_succ]
    push_cast
    ring
  have hbase := mul_ne_zero (cast_factorial_ne_zero K k) (cast_factorial_ne_zero K (2 * m + 1 + k))
  have hnext := mul_ne_zero (cast_factorial_ne_zero K k) (cast_factorial_ne_zero K (2 * m + 3 + k))
  rw [coeff_defect, coeff_defect, show 2 * (m + 1) + 1 + k = 2 * m + 3 + k by omega, hup, ← mul_div_assoc,
    div_add_div _ _ hnext hbase, div_eq_div_iff (mul_ne_zero hnext hbase) hnext, hdown]
  push_cast
  ring

theorem X_sq_mul_defect (m : ℕ) :
    PowerSeries.X ^ 2 * defect K (m + 2) = ((4 * m + 6 : ℕ) : PowerSeries K) * defect K (m + 1) + defect K m := by
  have hcast : ((4 * m + 6 : ℕ) : PowerSeries K) = PowerSeries.C ((4 * m + 6 : ℕ) : K) := (map_natCast _ _).symm
  ext k
  rw [hcast, map_add, PowerSeries.coeff_C_mul, coeff_defect_step, PowerSeries.coeff_X_pow_mul']
  rcases k with _ | _ | j
  · simp
  · simp
  · have hj := mul_ne_zero (cast_factorial_ne_zero K j) (cast_factorial_ne_zero K (2 * m + 3 + (j + 2)))
    have hk := mul_ne_zero (cast_factorial_ne_zero K (j + 2)) (cast_factorial_ne_zero K (2 * m + 3 + (j + 2)))
    rw [show j + 1 + 1 = j + 2 from rfl, if_pos (by omega), Nat.add_sub_cancel, coeff_defect,
      show m + 2 + j = m + (j + 2) by omega, show 2 * (m + 2) + 1 + j = 2 * m + 3 + (j + 2) by omega,
      div_eq_div_iff hj hk, Nat.factorial_succ (j + 1), Nat.factorial_succ j]
    push_cast
    ring

theorem coeff_exp (k : ℕ) : (PowerSeries.exp K).coeff k = (k.factorial : K)⁻¹ := by
  rw [PowerSeries.coeff_exp, map_div₀, map_one, map_natCast, one_div]

/-- The error of the quotient whose numerator and denominator are the sum and the difference of two parts. -/
noncomputable def quotientError (parts : K[X] × K[X]) : PowerSeries K :=
  ((parts.1 - parts.2 : K[X]) : PowerSeries K) * PowerSeries.exp K - ((parts.1 + parts.2 : K[X]) : PowerSeries K)

theorem coeff_defect_zero (j : ℕ) : (defect K 0).coeff j = ((j + 1).factorial : K)⁻¹ := by
  have hj := cast_factorial_ne_zero K j
  rw [coeff_defect, pow_zero, one_mul, Nat.mul_zero, Nat.zero_add, Nat.zero_add, add_comm 1 j, div_mul_cancel_left₀ hj]

theorem quotientError_zero : quotientError K (convergent K 0) = PowerSeries.X * defect K 0 := by
  ext k
  rcases k with _ | j
  · simp [quotientError, convergent]
  · rw [PowerSeries.coeff_succ_X_mul, coeff_defect_zero, ← coeff_exp]
    simp [quotientError, convergent, PowerSeries.coeff_one]

theorem X_sq_mul_defect_one :
    PowerSeries.X ^ 2 * defect K 1 = ((2 : ℕ) : PowerSeries K) * defect K 0 - PowerSeries.exp K - 1 := by
  have hcast : ((2 : ℕ) : PowerSeries K) = PowerSeries.C ((2 : ℕ) : K) := (map_natCast _ _).symm
  ext k
  rw [hcast, map_sub, map_sub, PowerSeries.coeff_C_mul, PowerSeries.coeff_X_pow_mul', coeff_defect_zero, coeff_exp,
    PowerSeries.coeff_one]
  rcases k with _ | _ | j
  · norm_num
  · norm_num
  · have hj := cast_factorial_ne_zero K j
    have hk := cast_factorial_ne_zero K (j + 2)
    have hthree : ((j + 3 : ℕ) : K) ≠ 0 := Nat.cast_ne_zero.2 (by omega)
    rw [show j + 1 + 1 = j + 2 from rfl, if_pos (by omega), if_neg (by omega), Nat.add_sub_cancel, coeff_defect,
      show 1 + j = j + 1 by omega, show 2 * 1 + 1 + j = j + 3 by omega, Nat.factorial_succ (j + 2),
      Nat.factorial_succ j]
    push_cast at hthree ⊢
    rw [show (j : K) + 2 + 1 = j + 3 by ring]
    field_simp
    ring

theorem quotientError_one : quotientError K (convergent K 1) = PowerSeries.X ^ 3 * defect K 1 := by
  have hcast : (((2 : ℕ) : K[X]) : PowerSeries K) = ((2 : ℕ) : PowerSeries K) :=
    map_natCast Polynomial.coeToPowerSeries.ringHom _
  have hzero : PowerSeries.exp K - 1 = PowerSeries.X * defect K 0 := by
    rw [← quotientError_zero]
    simp [quotientError, convergent]
  calc quotientError K (convergent K 1)
      = ((2 : ℕ) : PowerSeries K) * (PowerSeries.exp K - 1) - PowerSeries.X * (PowerSeries.exp K + 1) := by
        simp only [quotientError, convergent, Polynomial.coe_sub, Polynomial.coe_add, Polynomial.coe_X, hcast]
        ring
    _ = PowerSeries.X * (((2 : ℕ) : PowerSeries K) * defect K 0 - PowerSeries.exp K - 1) := by rw [hzero]; ring
    _ = PowerSeries.X ^ 3 * defect K 1 := by rw [← X_sq_mul_defect_one]; ring

/-- The error of a convergent starts at the power `2 * m + 1`. -/
theorem quotientError_convergent (m : ℕ) :
    quotientError K (convergent K m) = PowerSeries.X ^ (2 * m + 1) * defect K m := by
  induction m using Nat.twoStepInduction with
  | zero => rw [quotientError_zero, Nat.mul_zero, Nat.zero_add, pow_one]
  | one => rw [quotientError_one, Nat.mul_one]
  | more m ih ih' =>
    have hcast : (((4 * m + 6 : ℕ) : K[X]) : PowerSeries K) = ((4 * m + 6 : ℕ) : PowerSeries K) :=
      map_natCast Polynomial.coeToPowerSeries.ringHom _
    have hstep : quotientError K (convergent K (m + 2)) =
        ((4 * m + 6 : ℕ) : PowerSeries K) * quotientError K (convergent K (m + 1)) +
          PowerSeries.X ^ 2 * quotientError K (convergent K m) := by
      simp only [quotientError, convergent, Polynomial.coe_sub, Polynomial.coe_add, Polynomial.coe_mul,
        Polynomial.coe_pow, Polynomial.coe_X, hcast]
      ring
    calc quotientError K (convergent K (m + 2))
        = PowerSeries.X ^ (2 * m + 3) *
            (((4 * m + 6 : ℕ) : PowerSeries K) * defect K (m + 1) + defect K m) := by rw [hstep, ih, ih']; ring
      _ = PowerSeries.X ^ (2 * (m + 2) + 1) * defect K (m + 2) := by rw [← X_sq_mul_defect]; ring

/-- The quotient and the exponential agree through order twenty-six. -/
theorem X_pow_dvd_error :
    PowerSeries.X ^ 27 ∣ (denominator K : PowerSeries K) * PowerSeries.exp K - (numerator K : PowerSeries K) := by
  have herror := quotientError_convergent K 13
  rw [convergent_thirteen] at herror
  exact Dvd.intro _ herror.symm

noncomputable def taylor (n : ℕ) : K[X] := (PowerSeries.exp K).trunc n

theorem X_pow_dvd_taylor : X ^ 27 ∣ denominator K * taylor K 27 - numerator K := by
  rw [X_pow_dvd_iff]
  intro k hk
  have htrunc := congrArg (·.coeff k)
    (PowerSeries.trunc_mul_trunc (n := 27) (denominator K : PowerSeries K) (PowerSeries.exp K))
  simp only [PowerSeries.coeff_trunc, if_pos hk] at htrunc
  have hzero := PowerSeries.X_pow_dvd_iff.1 (X_pow_dvd_error K) k hk
  rw [map_sub, ← htrunc, ← taylor, ← Polynomial.coe_mul, Polynomial.coeff_coe, Polynomial.coeff_coe] at hzero
  rw [coeff_sub, hzero]

end Order

/-! ### Nilpotent matrices -/

section Quotient

open Polynomial

variable {K R : Type} [Field K] [CharZero K] {d : ℕ} {a : Mat K} {A : Matrix (Fin d) (Fin d) K}

/-- The exponential of a matrix is its series up to a power that vanishes. -/
theorem exp_eq_sum {n : ℕ} (hA : A ^ n = 0) :
    IsNilpotent.exp A = ∑ k ∈ Finset.range n, (k.factorial : K)⁻¹ • A ^ k := by
  rw [IsNilpotent.exp_eq_sum hA]
  refine Finset.sum_congr rfl fun k _ => ?_
  rw [← Rat.cast_smul_eq_qsmul K, Rat.cast_inv, Rat.cast_natCast]

theorem aeval_taylor {n : ℕ} (hA : A ^ n = 0) : aeval A (taylor K n) = IsNilpotent.exp A := by
  rw [exp_eq_sum hA, taylor, aeval_def, PowerSeries.eval₂_trunc_eq_sum_range]
  refine Finset.sum_congr rfl fun k _ => ?_
  rw [coeff_exp, ← Algebra.smul_def]

/-- At a nilpotent matrix the denominator is invertible. -/
theorem isUnit_denominator_of_pow {n : ℕ} (hA : A ^ n = 0) : IsUnit (aeval A (denominator K)) := by
  have hcoeff : (denominator K).coeff 0 ≠ 0 := by
    simp [denominator, parityPart, Finset.sum_range_succ, coeff_monomial, padeCoefficients]
  obtain ⟨p, q, hpq⟩ := isCoprime_X_pow hcoeff n
  have hone : aeval A p * aeval A (denominator K) = 1 := by
    rw [← map_mul, eq_sub_of_add_eq hpq]
    simp [hA]
  exact IsUnit.of_mul_eq_one_right _ hone

variable [LinearOrder R] [Zero R] [ComplexScalar K R]

theorem toMatrix_pade_of_pow (habs : ∀ z : K, ComplexScalar.abs z ≤ (0 : R) ↔ z = 0) (ha : a.HasShape d d)
    (hA : a.toMatrix d d ^ 27 = 0) : (pade a).toMatrix d d = IsNilpotent.exp (a.toMatrix d d) := by
  have hunit := isUnit_denominator_of_pow hA
  obtain ⟨q, hq⟩ := X_pow_dvd_taylor K
  have hzero : aeval (a.toMatrix d d) (denominator K * taylor K 27 - numerator K) = 0 := by
    rw [hq, map_mul, map_pow, aeval_X, hA, zero_mul]
  rw [map_sub, map_mul, sub_eq_zero, aeval_taylor hA] at hzero
  -- both solve the equation of the quotient
  apply hunit.mul_left_cancel
  rw [denominator_mul_pade habs ha hunit, hzero]

end Quotient

/-! ### Halving and squaring -/

section Squaring

variable {K R : Type} [Field K] [CharZero K] {d : ℕ} {a : Mat K}

theorem exp_nsmul {A : Matrix (Fin d) (Fin d) K} (hA : IsNilpotent A) (n : ℕ) :
    IsNilpotent.exp (n • A) = IsNilpotent.exp A ^ n := by
  induction n with
  | zero => rw [zero_smul, IsNilpotent.exp_zero, pow_zero]
  | succ n ih =>
    rw [succ_nsmul, IsNilpotent.exp_add_of_commute ((Commute.refl A).smul_left n) (hA.smul n) hA, ih, pow_succ]

variable [LinearOrder R] [Zero R] [ComplexScalar K R]

/-- Halving and squaring cancel in the exponential. -/
theorem toMatrix_exponentialWith_of_pow (habs : ∀ z : K, ComplexScalar.abs z ≤ (0 : R) ↔ z = 0) (s : ℕ)
    (ha : a.HasShape d d) (hA : a.toMatrix d d ^ 27 = 0) :
    (exponentialWith s a).toMatrix d d = IsNilpotent.exp (a.toMatrix d d) := by
  have hhalf : (a.scale (halfPower s)).toMatrix d d = (1 / 2 : K) ^ s • a.toMatrix d d := by
    rw [toMatrix_scale ha, halfPower_eq]
  have hpower : (a.scale (halfPower s)).toMatrix d d ^ 27 = 0 := by rw [hhalf, smul_pow, hA, smul_zero]
  have hwhole : 2 ^ s • (a.scale (halfPower s)).toMatrix d d = a.toMatrix d d := by
    rw [hhalf, ← Nat.cast_smul_eq_nsmul K, smul_smul, Nat.cast_pow, ← mul_pow, Nat.cast_ofNat,
      mul_one_div_cancel two_ne_zero, one_pow, one_smul]
  rw [exponentialWith, toMatrix_squareTimes s (hasShape_pade (ha.scale _)),
    toMatrix_pade_of_pow habs (ha.scale _) hpower, ← exp_nsmul ⟨27, hpower⟩, hwhole]

variable [Add R] [Div R] [RealScalar R]

theorem toMatrix_exponential_of_pow (habs : ∀ z : K, ComplexScalar.abs z ≤ (0 : R) ↔ z = 0)
    (hexp : ComplexScalar.exp (0 : K) = 1) (ha : a.HasShape d d) (hA : a.toMatrix d d ^ 27 = 0) :
    a.exponential.toMatrix d d = IsNilpotent.exp (a.toMatrix d d) := by
  unfold exponential
  split
  · rename_i hrows
    obtain rfl : d = 0 := ha.rows.symm.trans hrows
    exact Subsingleton.elim _ _
  · rename_i hrows
    obtain rfl : d = 1 := ha.rows.symm.trans hrows
    -- a nilpotent scalar is zero
    have hdet : (a.toMatrix 1 1).det ^ 27 = 0 := by rw [← Matrix.det_pow, hA, Matrix.det_zero]
    have hentry : a.entry 0 0 = 0 := by
      rw [Matrix.det_fin_one] at hdet
      exact eq_zero_of_pow_eq_zero hdet
    have hzero : a.toMatrix 1 1 = 0 := by
      ext i j
      rw [Subsingleton.elim i 0, Subsingleton.elim j 0]
      exact hentry
    rw [hzero, IsNilpotent.exp_zero, hentry, hexp, single, toMatrix_ofFn]
    ext i j
    rw [Subsingleton.elim i j, Matrix.one_apply_eq, Matrix.of_apply]
  · exact toMatrix_exponentialWith_of_pow habs _ ha hA

/-- The approximant and the exponential series agree through order twenty-six. At a matrix whose power twenty-seven
vanishes the computed exponential is therefore exact, however often the matrix is halved and the result squared. -/
theorem exponential_eq_sum_of_pow (habs : ∀ z : K, ComplexScalar.abs z ≤ (0 : R) ↔ z = 0)
    (hexp : ComplexScalar.exp (0 : K) = 1) (ha : a.HasShape d d) (hA : a.toMatrix d d ^ 27 = 0) :
    PowerSeries.X ^ 27 ∣ (denominator K : PowerSeries K) * PowerSeries.exp K - (numerator K : PowerSeries K) ∧
    (∀ s, (exponentialWith s a).HasShape d d ∧
      (exponentialWith s a).toMatrix d d = ∑ k ∈ Finset.range 27, (k.factorial : K)⁻¹ • a.toMatrix d d ^ k) ∧
    a.exponential? = some a.exponential ∧ a.exponential.HasShape d d ∧
    a.exponential.toMatrix d d = ∑ k ∈ Finset.range 27, (k.factorial : K)⁻¹ • a.toMatrix d d ^ k := by
  have hsquare : a.rows = a.cols := ha.rows.trans ha.cols.symm
  rw [← exp_eq_sum hA]
  exact ⟨X_pow_dvd_error K,
    fun s => ⟨hasShape_exponentialWith s ha, toMatrix_exponentialWith_of_pow habs s ha hA⟩,
    if_pos (.inr (.inr hsquare)), hasShape_exponential ha, toMatrix_exponential_of_pow habs hexp ha hA⟩

end Squaring

/-- A matrix of large norm, so that it is halved. -/
theorem exponential_eq_sum_of_pow_triangular :
    let a : Mat ℂ := .ofFn 3 3 fun r c => if r < c then 100 else 0
    a.toMatrix 3 3 ^ 27 = 0 ∧ a.exponential? = some a.exponential ∧
      a.exponential.toMatrix 3 3 = !![1, 100, 5100; 0, 1, 100; 0, 0, 1] := by
  intro a
  have hmatrix : a.toMatrix 3 3 = !![0, 100, 100; 0, 0, 100; 0, 0, 0] := by
    rw [toMatrix_ofFn]
    ext i j
    fin_cases i <;> fin_cases j <;> rfl
  have hsquare : a.toMatrix 3 3 ^ 2 = !![0, 0, 10000; 0, 0, 0; 0, 0, 0] := by
    rw [hmatrix, pow_two]
    ext i j
    fin_cases i <;> fin_cases j <;> norm_num [Matrix.mul_apply, Fin.sum_univ_succ]
  have hcube : a.toMatrix 3 3 ^ 3 = 0 := by
    rw [pow_succ, hsquare, hmatrix]
    ext i j
    fin_cases i <;> fin_cases j <;> norm_num [Matrix.mul_apply, Fin.sum_univ_succ]
  have hpow : a.toMatrix 3 3 ^ 27 = 0 := pow_eq_zero_of_le (by norm_num) hcube
  obtain ⟨-, -, hsome, -, h⟩ := exponential_eq_sum_of_pow (R := ℝ) (fun z => norm_le_zero_iff) Complex.exp_zero
    (hasShape_ofFn 3 3 _) hpow
  refine ⟨hpow, hsome, h.trans ?_⟩
  rw [← exp_eq_sum hpow, exp_eq_sum hcube, Finset.sum_range_succ, Finset.sum_range_succ, Finset.sum_range_one, hsquare,
    pow_one, pow_zero, hmatrix]
  ext i j
  fin_cases i <;> fin_cases j <;> norm_num [Nat.factorial]

end QubitDynamics.Mat
