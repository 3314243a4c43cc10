import Mathlib.Analysis.Complex.Polynomial.Basic
import Mathlib.FieldTheory.IsAlgClosed.Spectrum
import Mathlib.LinearAlgebra.Matrix.Gershgorin
import QubitDynamics.Proofs.Approximant

/-! Halved matrices. The norm that decides how often a matrix is halved bounds its
eigenvalues, and after halving it is at most `5.37`. The denominator of the
approximant has no zero in the disc of that radius: it is nearly a multiple of
`exp (-x / 2)`, and its product with the first terms of `exp (x / 2)` has a constant
term that outweighs all others. Hence the system that the exponential solves is
invertible for every matrix, Hermitian or not. -/

namespace QubitDynamics.Mat

/-! ### The norm -/

section Norm

variable {r c : ℕ} {a : Mat ℂ}

noncomputable def columnSum (a : Mat ℂ) (j : ℕ) : ℝ := rangeSum a.rows fun i => ComplexScalar.abs (a.entry i j)

theorem columnSum_eq (ha : a.HasShape r c) (j : ℕ) : a.columnSum j = ∑ i : Fin r, ‖a.entry i j‖ := by
  rw [columnSum, rangeSum_eq_sum, ha.rows]
  rfl

theorem foldl_larger_le_iff {R : Type} [LinearOrder R] (f : ℕ → R) (js : List ℕ) (b x : R) :
    js.foldl (fun best j => if best < f j then f j else best) b ≤ x ↔ b ≤ x ∧ ∀ j ∈ js, f j ≤ x := by
  induction js generalizing b with
  | nil => simp
  | cons j js ih =>
    rw [List.foldl_cons, ih, List.forall_mem_cons, ← and_assoc]
    refine and_congr_left fun _ => ?_
    split
    · rename_i hlt
      exact ⟨fun h => ⟨hlt.le.trans h, h⟩, And.right⟩
    · rename_i hle
      exact ⟨fun h => ⟨h, (not_lt.1 hle).trans h⟩, And.left⟩

/-- The norm is the least bound of the column sums. -/
theorem oneNorm_le_iff (ha : a.HasShape r c) {x : ℝ} : a.oneNorm ≤ x ↔ 0 ≤ x ∧ ∀ j < c, a.columnSum j ≤ x := by
  rw [oneNorm, ha.cols]
  refine (foldl_larger_le_iff a.columnSum _ 0 x).trans ?_
  simp only [List.mem_range]

theorem oneNorm_nonneg (ha : a.HasShape r c) : 0 ≤ a.oneNorm := ((oneNorm_le_iff ha).1 le_rfl).1

theorem columnSum_le_oneNorm (ha : a.HasShape r c) {j : ℕ} (hj : j < c) : a.columnSum j ≤ a.oneNorm :=
  ((oneNorm_le_iff ha).1 le_rfl).2 j hj

/-- Matrices with the same column sums have the same norm. -/
theorem oneNorm_eq_of_columnSum {r' c' : ℕ} {b : Mat ℂ} (ha : a.HasShape r c) (hb : b.HasShape r' c')
    (hab : ∀ j < c, ∃ k < c', a.columnSum j = b.columnSum k) (hba : ∀ k < c', ∃ j < c, b.columnSum k = a.columnSum j) :
    (a.oneNorm : ℝ) = b.oneNorm := by
  refine le_antisymm ?_ ?_
  · refine (oneNorm_le_iff ha).2 ⟨oneNorm_nonneg hb, fun j hj => ?_⟩
    obtain ⟨k, hk, hsum⟩ := hab j hj
    exact hsum ▸ columnSum_le_oneNorm hb hk
  · refine (oneNorm_le_iff hb).2 ⟨oneNorm_nonneg ha, fun k hk => ?_⟩
    obtain ⟨j, hj, hsum⟩ := hba k hk
    exact hsum ▸ columnSum_le_oneNorm ha hj

theorem columnSum_scale (ha : a.HasShape r c) (k : ℂ) {j : ℕ} (hj : j < c) :
    (a.scale k).columnSum j = ‖k‖ * a.columnSum j := by
  rw [columnSum_eq (ha.scale k), columnSum_eq ha, Finset.mul_sum]
  refine Finset.sum_congr rfl fun i _ => ?_
  have hentry : (a.scale k).entry i j = k * a.entry i j := congrFun (congrFun (toMatrix_scale ha k) i) ⟨j, hj⟩
  rw [hentry, norm_mul]

theorem oneNorm_scale_le (ha : a.HasShape r c) (k : ℂ) : (a.scale k).oneNorm ≤ ‖k‖ * a.oneNorm := by
  refine (oneNorm_le_iff (ha.scale k)).2 ⟨mul_nonneg (norm_nonneg k) (oneNorm_nonneg ha), fun j hj => ?_⟩
  rw [columnSum_scale ha k hj]
  exact mul_le_mul_of_nonneg_left (columnSum_le_oneNorm ha hj) (norm_nonneg k)

/-- An eigenvalue is not larger than the norm. -/
theorem norm_le_oneNorm_of_mem_spectrum {d : ℕ} (ha : a.HasShape d d) {z : ℂ}
    (hz : z ∈ spectrum ℂ (a.toMatrix d d)) : ‖z‖ ≤ a.oneNorm := by
  rw [spectrum.mem_iff, Matrix.isUnit_iff_isUnit_det, isUnit_iff_ne_zero] at hz
  by_contra hlarge
  refine hz (det_ne_zero_of_sum_col_lt_diag fun k => ?_)
  -- outside the diagonal the difference has the moduli of the matrix
  have hoff : ∑ i ∈ Finset.univ.erase k, ‖(algebraMap ℂ (Matrix (Fin d) (Fin d) ℂ) z - a.toMatrix d d) i k‖ =
      ∑ i ∈ Finset.univ.erase k, ‖a.entry i k‖ := by
    refine Finset.sum_congr rfl fun i hi => ?_
    rw [Matrix.sub_apply, Matrix.algebraMap_matrix_apply, if_neg (Finset.ne_of_mem_erase hi), zero_sub, norm_neg,
      toMatrix_apply]
  have hcolumn : ‖a.entry k k‖ + ∑ i ∈ Finset.univ.erase k, ‖a.entry i k‖ ≤ a.oneNorm := by
    rw [Finset.add_sum_erase Finset.univ (fun i : Fin d => ‖a.entry i k‖) (Finset.mem_univ k), ← columnSum_eq ha]
    exact columnSum_le_oneNorm ha k.isLt
  have hdiag : ‖z‖ - ‖a.entry k k‖ ≤ ‖(algebraMap ℂ (Matrix (Fin d) (Fin d) ℂ) z - a.toMatrix d d) k k‖ := by
    rw [Matrix.sub_apply, Matrix.algebraMap_matrix_apply, if_pos rfl]
    exact norm_sub_norm_le _ _
  rw [hoff]
  linarith

end Norm

/-! ### Halving -/

section Halving

variable {r c : ℕ} {a : Mat ℂ}

theorem toReal_radius : (⟨537, -2⟩ : Decimal).toReal = 537 / 100 := by
  norm_num [Decimal.toReal]

/-- The norm alone decides how often a matrix is halved. -/
theorem squarings_eq_of_oneNorm {a b : Mat ℂ} (h : (a.oneNorm : ℝ) = b.oneNorm) : a.squarings = b.squarings := by
  rw [squarings, squarings, h]

/-- The exponential of a single entry is that of the number. -/
theorem exponential_eq_single (ha : a.HasShape 1 1) : a.exponential = single (Complex.exp (a.entry 0 0)) := by
  rw [exponential, ha.rows]
  rfl

/-- From size two on, the exponential is a power of the approximant at the halved matrix. -/
theorem toMatrix_exponential {d : ℕ} (ha : a.HasShape d d) (hd : 2 ≤ d) :
    a.exponential.toMatrix d d = (pade (a.scale (halfPower a.squarings))).toMatrix d d ^ 2 ^ a.squarings := by
  obtain ⟨k, rfl⟩ := Nat.exists_eq_add_of_le' hd
  have hlarge : a.exponential = exponentialWith a.squarings a := by
    rw [exponential, ha.rows]
    rfl
  rw [hlarge, exponentialWith, toMatrix_squareTimes _ (hasShape_pade (ha.scale _))]

/-- The matrix is halved often enough. -/
theorem oneNorm_le_squarings (a : Mat ℂ) : a.oneNorm ≤ 537 / 100 * 2 ^ a.squarings := by
  unfold squarings
  simp only [ofDecimal_eq, toReal_radius]
  split
  · rename_i hlarge
    have hlog : Real.logb 2 (a.oneNorm / (537 / 100)) ≤ (⌈Real.logb 2 (a.oneNorm / (537 / 100))⌉₊ : ℝ) := Nat.le_ceil _
    have hpos : 0 < a.oneNorm / (537 / 100) := by linarith
    rw [Real.logb_le_iff_le_rpow one_lt_two hpos, Real.rpow_natCast, div_le_iff₀ (by norm_num), mul_comm] at hlog
    exact hlog
  · rename_i hsmall
    linarith

theorem oneNorm_halved_le (ha : a.HasShape r c) : (a.scale (halfPower a.squarings)).oneNorm ≤ 537 / 100 := by
  have hhalf : ‖(halfPower a.squarings : ℂ)‖ = (2 ^ a.squarings)⁻¹ := by
    rw [halfPower_eq, norm_pow, norm_div, norm_one, RCLike.norm_ofNat, one_div, inv_pow]
  calc (a.scale (halfPower a.squarings)).oneNorm
      ≤ (2 ^ a.squarings)⁻¹ * a.oneNorm := hhalf ▸ oneNorm_scale_le ha _
    _ ≤ (2 ^ a.squarings)⁻¹ * (537 / 100 * 2 ^ a.squarings) := by gcongr; exact oneNorm_le_squarings a
    _ = 537 / 100 := by field_simp

end Halving

/-! ### Zeros of the denominator -/

section Zeros

open Polynomial

/-- Coefficients of `exp (x / 2)` through order seven, times `2 ^ 7 · 7!`. -/
def cofactor : List ℕ := [645120, 322560, 80640, 13440, 1680, 168, 14, 1]

/-- Coefficients of the product of the denominator and the cofactor. -/
def dominated : List ℤ :=
  [41781037153753497600000, 0, -208905185768767488000, 0, 567677135241216000, 0, -1126343522304000, 0,
    -4045944494592000, 1799020903680000, -384543442483200, 52335153561600, -5058520346880, 366477350400, -20449376640,
    887759040, -29846880, 760536, -14000, 168, -1]

theorem eval_denominator_mul_cofactor (z : ℂ) :
    (denominator ℂ).eval z * ∑ k ∈ Finset.range 8, (cofactor.getD k 0 : ℕ) * z ^ k =
      ∑ k ∈ Finset.range 21, (dominated.getD k 0 : ℤ) * z ^ k := by
  simp only [denominator, parityPart, Finset.sum_range_succ, Finset.sum_range_zero, eval_sub, eval_add, eval_zero,
    eval_monomial, padeCoefficients, cofactor, dominated, List.getD_cons_zero, List.getD_cons_succ, Nat.reduceMul,
    Nat.reduceAdd]
  push_cast
  ring

/-- The constant term outweighs the others in the whole disc. -/
theorem sum_dominated_lt :
    ∑ k ∈ Finset.range 20, |((dominated.getD (k + 1) 0 : ℤ) : ℝ)| * (537 / 100) ^ (k + 1) <
      ((dominated.getD 0 0 : ℤ) : ℝ) := by
  simp only [Finset.sum_range_succ, Finset.sum_range_zero, dominated, List.getD_cons_zero, List.getD_cons_succ]
  norm_num

theorem eval_denominator_ne_zero {z : ℂ} (hz : ‖z‖ ≤ 537 / 100) : (denominator ℂ).eval z ≠ 0 := by
  intro hzero
  have hsum := eval_denominator_mul_cofactor z
  rw [hzero, zero_mul, Finset.sum_range_succ', pow_zero, mul_one] at hsum
  have hbound : ‖∑ k ∈ Finset.range 20, ((dominated.getD (k + 1) 0 : ℤ) : ℂ) * z ^ (k + 1)‖ ≤
      ∑ k ∈ Finset.range 20, |((dominated.getD (k + 1) 0 : ℤ) : ℝ)| * (537 / 100) ^ (k + 1) := by
    refine norm_sum_le_of_le _ fun k _ => ?_
    rw [norm_mul, norm_pow, Complex.norm_intCast]
    gcongr
  have hconstant : ‖∑ k ∈ Finset.range 20, ((dominated.getD (k + 1) 0 : ℤ) : ℂ) * z ^ (k + 1)‖ =
      |((dominated.getD 0 0 : ℤ) : ℝ)| := by
    rw [eq_neg_of_add_eq_zero_left hsum.symm, norm_neg, Complex.norm_intCast]
  have hle := le_abs_self ((dominated.getD 0 0 : ℤ) : ℝ)
  linarith [sum_dominated_lt]

variable {d : ℕ} {a : Mat ℂ}

/-- The denominator is invertible at every matrix of small norm. -/
theorem isUnit_denominator_of_oneNorm_le (ha : a.HasShape d d) (hnorm : a.oneNorm ≤ 537 / 100) :
    IsUnit (aeval (a.toMatrix d d) (denominator ℂ)) := by
  have hdegree : 0 < (denominator ℂ).degree := by
    refine lt_of_lt_of_le (by norm_num) (le_degree_of_ne_zero (n := 13) ?_)
    simp [denominator, parityPart, Finset.sum_range_succ, coeff_monomial, padeCoefficients]
  rw [← spectrum.zero_notMem_iff ℂ, spectrum.map_polynomial_aeval_of_degree_pos _ _ hdegree]
  rintro ⟨z, hz, hzero⟩
  exact eval_denominator_ne_zero ((norm_le_oneNorm_of_mem_spectrum ha hz).trans hnorm) hzero

/-- A matrix is halved until the denominator is invertible. -/
theorem isUnit_denominator_halved (ha : a.HasShape d d) :
    IsUnit (aeval ((a.scale (halfPower a.squarings)).toMatrix d d) (denominator ℂ)) :=
  isUnit_denominator_of_oneNorm_le (ha.scale _) (oneNorm_halved_le ha)

end Zeros

end QubitDynamics.Mat
