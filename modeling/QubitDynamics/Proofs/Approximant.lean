import Mathlib.Algebra.Polynomial.FieldDivision
import Mathlib.LinearAlgebra.Matrix.DotProduct
import Mathlib.LinearAlgebra.Matrix.ToLinearEquiv
import Mathlib.LinearAlgebra.UnitaryGroup
import Mathlib.RingTheory.PrincipalIdealDomain
import QubitDynamics.Linear.Exponential
import QubitDynamics.Proofs.Elimination
import QubitDynamics.Proofs.ExactScalar

/-! The rational approximant of the exponential, as a quotient of polynomials in a
matrix. Its numerator is the thirteenth convergent of a continued fraction, so that
the even and the odd part of the numerator have no common zero. At a skew-Hermitian
matrix the even part is Hermitian and the odd part skew-Hermitian, and a vector that
the denominator annihilates is annihilated by both; hence the denominator is always
invertible there and the approximant is unitary. Halving keeps a matrix
skew-Hermitian, squaring keeps it unitary, and the exponential of every
skew-Hermitian matrix is exactly unitary. -/

namespace QubitDynamics.Mat

open Polynomial

/-! ### Numerator and denominator -/

section Parts

variable (K : Type) [CommRing K]

/-- The terms of the numerator whose degree has the parity of `e`, for `e = 0` and `e = 1`. -/
noncomputable def parityPart (e : ℕ) : K[X] :=
  ∑ k ∈ Finset.range 7, monomial (2 * k + e) ((padeCoefficients.getD (2 * k + e) 0 : ℕ) : K)

noncomputable def numerator : K[X] := parityPart K 0 + parityPart K 1

noncomputable def denominator : K[X] := parityPart K 0 - parityPart K 1

/-- The even and the odd part of the numerator of each degree. Their quotients `odd / even` are the
convergents of the continued fraction `x / (2 + x ^ 2 / (6 + x ^ 2 / (10 + ⋯)))`. -/
noncomputable def convergent : ℕ → K[X] × K[X]
  | 0 => (1, 0)
  | 1 => ((2 : ℕ), X)
  | m + 2 =>
    let (even, odd) := convergent (m + 1)
    let (even', odd') := convergent m
    (((4 * m + 6 : ℕ) : K[X]) * even + X ^ 2 * even', ((4 * m + 6 : ℕ) : K[X]) * odd + X ^ 2 * odd')

theorem convergent_thirteen : convergent K 13 = (parityPart K 0, parityPart K 1) := by
  simp only [convergent, parityPart, Finset.sum_range_succ, Finset.sum_range_zero, padeCoefficients,
    List.getD_cons_zero, List.getD_cons_succ, Nat.reduceMul, Nat.reduceAdd, ← C_mul_X_pow_eq_monomial, map_natCast]
  push_cast
  refine Prod.ext ?_ ?_ <;> ring

/-- Neighbouring convergents differ by one power. -/
theorem convergent_cross (m : ℕ) :
    (convergent K m).1 * (convergent K (m + 1)).2 - (convergent K (m + 1)).1 * (convergent K m).2 =
      (-1) ^ m * X ^ (2 * m + 1) := by
  induction m with
  | zero => simp [convergent]
  | succ m ih =>
    have hpow : (-1 : K[X]) ^ (m + 1) * X ^ (2 * (m + 1) + 1) = -X ^ 2 * ((-1) ^ m * X ^ (2 * m + 1)) := by ring
    rw [hpow, ← ih]
    simp only [convergent]
    ring

end Parts

/-- A polynomial with a constant term has no divisor in common with a power of `X`. -/
theorem isCoprime_X_pow {K : Type} [Field K] {p : K[X]} (h : p.coeff 0 ≠ 0) (n : ℕ) : IsCoprime p (X ^ n) := by
  refine (IsCoprime.symm ?_).pow_right
  rwa [irreducible_X.coprime_iff_not_dvd, X_dvd_iff]

/-- The even and the odd part of the numerator have no common zero. -/
theorem isCoprime_parts (K : Type) [Field K] [CharZero K] : IsCoprime (parityPart K 0) (parityPart K 1) := by
  -- a common divisor divides a power of `X`, but the even part has a constant term
  have hcross := convergent_cross K 12
  rw [convergent_thirteen] at hcross
  have hX : IsCoprime (parityPart K 0) (X ^ 25) := by
    refine isCoprime_X_pow ?_ 25
    simp [parityPart, Finset.sum_range_succ, coeff_monomial, padeCoefficients]
  have hpower : X ^ 25 = (convergent K 12).1 * parityPart K 1 + parityPart K 0 * -(convergent K 12).2 := by
    linear_combination -hcross
  rw [hpower] at hX
  exact hX.of_add_mul_left_right.of_mul_right_right

/-! ### Shapes -/

section Shapes

variable {K R : Type} [Zero K] [One K] [Add K] [Mul K] {d : ℕ} {a : Mat K}

theorem hasShape_sexticAt {a2 a4 a6 : Mat K} (h6 : a6.HasShape d d) (c : ℕ → K) :
    (sexticAt a2 a4 a6 c).HasShape d d := by
  have hhigh := ((h6.scale (c 6)).add (a4.scale (c 5))).add (a2.scale (c 4))
  exact ((((hhigh.mul h6).add _).add _).add _).add _

theorem hasShape_squareTimes (s : ℕ) (ha : a.HasShape d d) : (squareTimes s a).HasShape d d := by
  induction s generalizing a with
  | zero => exact ha
  | succ s ih => exact ih (ha.mul ha)

variable [NatCast K]

theorem hasShape_padeParts (ha : a.HasShape d d) :
    (padeParts a).1.HasShape d d ∧ (padeParts a).2.HasShape d d := by
  have h2 := ha.mul ha
  have h6 := h2.mul (h2.mul h2)
  simp only [padeParts]
  exact ⟨ha.mul (hasShape_sexticAt h6 _), hasShape_sexticAt h6 _⟩

variable [Sub K] [Div K] [Zero R] [LE R] [DecidableLE R] [ComplexScalar K R]

theorem hasShape_pade (ha : a.HasShape d d) : (pade a).HasShape d d :=
  have ⟨_, heven⟩ := hasShape_padeParts ha
  hasShape_solve (heven.sub _) (heven.add _)

theorem hasShape_exponentialWith (s : ℕ) (ha : a.HasShape d d) : (exponentialWith s a).HasShape d d :=
  hasShape_squareTimes s (hasShape_pade (ha.scale _))

variable [Add R] [Div R] [LT R] [DecidableLT R] [RealScalar R]

theorem hasShape_exponential (ha : a.HasShape d d) : a.exponential.HasShape d d := by
  unfold exponential
  split
  · rename_i hrows
    obtain rfl : d = 0 := ha.rows.symm.trans hrows
    exact hasShape_zero 0 0
  · rename_i hrows
    obtain rfl : d = 1 := ha.rows.symm.trans hrows
    exact hasShape_ofFn 1 1 _
  · exact hasShape_exponentialWith _ ha

end Shapes

/-! ### Evaluation at stored matrices -/

section Evaluation

variable {K R : Type} [Field K] {d : ℕ} {a : Mat K}

theorem aeval_parityPart (A : Matrix (Fin d) (Fin d) K) (e : ℕ) :
    aeval A (parityPart K e) =
      ∑ k ∈ Finset.range 7, ((padeCoefficients.getD (2 * k + e) 0 : ℕ) : K) • A ^ (2 * k + e) := by
  simp only [parityPart, map_sum, aeval_monomial, Algebra.smul_def]

theorem toMatrix_sexticAt {a2 a4 a6 : Mat K} (h2 : a2.HasShape d d) (h4 : a4.HasShape d d) (h6 : a6.HasShape d d)
    (hsquare : a4.toMatrix d d = a2.toMatrix d d ^ 2) (hcube : a6.toMatrix d d = a2.toMatrix d d ^ 3) (c : ℕ → K) :
    (sexticAt a2 a4 a6 c).toMatrix d d = ∑ k ∈ Finset.range 7, c k • a2.toMatrix d d ^ k := by
  have hhigh := ((h6.scale (c 6)).add (a4.scale (c 5))).add (a2.scale (c 4))
  have hprod := hhigh.mul h6
  rw [sexticAt, toMatrix_add (((hprod.add _).add _).add _), toMatrix_add ((hprod.add _).add _),
    toMatrix_add (hprod.add _), toMatrix_add hprod, toMatrix_mul hhigh h6, toMatrix_add ((h6.scale _).add _),
    toMatrix_add (h6.scale _), toMatrix_scale h6, toMatrix_scale h6, toMatrix_scale h4, toMatrix_scale h4,
    toMatrix_scale h2, toMatrix_scale h2, h2.rows, toMatrix_scale (hasShape_identity d), toMatrix_identity, hsquare,
    hcube]
  -- the powers above the cube are those of the high part times the cube
  simp only [Finset.sum_range_succ, Finset.sum_range_zero, add_mul, smul_mul_assoc, ← pow_add, ← pow_succ']
  simp only [Nat.reduceAdd, pow_zero, pow_one]
  abel

theorem toMatrix_padeParts (ha : a.HasShape d d) :
    (padeParts a).1.toMatrix d d = aeval (a.toMatrix d d) (parityPart K 1) ∧
      (padeParts a).2.toMatrix d d = aeval (a.toMatrix d d) (parityPart K 0) := by
  have h2 := ha.mul ha
  have h4 := h2.mul h2
  have h6 := h2.mul h4
  have e2 : (a.mul a).toMatrix d d = a.toMatrix d d ^ 2 := by rw [toMatrix_mul ha ha, pow_two]
  have hsquare : ((a.mul a).mul (a.mul a)).toMatrix d d = (a.mul a).toMatrix d d ^ 2 := by
    rw [toMatrix_mul h2 h2, pow_two]
  have hcube : ((a.mul a).mul ((a.mul a).mul (a.mul a))).toMatrix d d = (a.mul a).toMatrix d d ^ 3 := by
    rw [toMatrix_mul h2 h4, hsquare, pow_succ' _ 2]
  constructor
  · rw [padeParts, toMatrix_mul ha (hasShape_sexticAt h6 _), toMatrix_sexticAt h2 h4 h6 hsquare hcube, e2,
      aeval_parityPart, Finset.mul_sum]
    refine Finset.sum_congr rfl fun k _ => ?_
    rw [mul_smul_comm, ← pow_mul, ← pow_succ']
  · rw [padeParts, toMatrix_sexticAt h2 h4 h6 hsquare hcube, e2, aeval_parityPart]
    refine Finset.sum_congr rfl fun k _ => ?_
    rw [← pow_mul, Nat.add_zero]

theorem toMatrix_padeParts_sub (ha : a.HasShape d d) :
    ((padeParts a).2.sub (padeParts a).1).toMatrix d d = aeval (a.toMatrix d d) (denominator K) := by
  obtain ⟨hodd, heven⟩ := toMatrix_padeParts ha
  rw [toMatrix_sub (hasShape_padeParts ha).2, heven, hodd, denominator, map_sub]

theorem toMatrix_padeParts_add (ha : a.HasShape d d) :
    ((padeParts a).2.add (padeParts a).1).toMatrix d d = aeval (a.toMatrix d d) (numerator K) := by
  obtain ⟨hodd, heven⟩ := toMatrix_padeParts ha
  rw [toMatrix_add (hasShape_padeParts ha).2, heven, hodd, numerator, map_add]

theorem toMatrix_squareTimes (s : ℕ) (ha : a.HasShape d d) :
    (squareTimes s a).toMatrix d d = a.toMatrix d d ^ 2 ^ s := by
  induction s generalizing a with
  | zero => rw [squareTimes, pow_zero, pow_one]
  | succ s ih => rw [squareTimes, ih (ha.mul ha), toMatrix_mul ha ha, ← pow_two, ← pow_mul, ← pow_succ']

theorem halfPower_eq (s : ℕ) : (halfPower s : K) = (1 / 2) ^ s := by
  induction s with
  | zero => rw [halfPower, pow_zero]
  | succ s ih => rw [halfPower, ih, pow_succ, Nat.cast_ofNat]

variable [LinearOrder R] [Zero R] [ComplexScalar K R]

/-- Where the denominator is invertible, the approximant is the quotient. -/
theorem denominator_mul_pade (habs : ∀ z : K, ComplexScalar.abs z ≤ (0 : R) ↔ z = 0) (ha : a.HasShape d d)
    (hunit : IsUnit (aeval (a.toMatrix d d) (denominator K))) :
    aeval (a.toMatrix d d) (denominator K) * (pade a).toMatrix d d = aeval (a.toMatrix d d) (numerator K) := by
  obtain ⟨-, heven⟩ := hasShape_padeParts ha
  rw [← toMatrix_padeParts_sub ha] at hunit ⊢
  rw [← toMatrix_padeParts_add ha]
  exact mul_solve habs (heven.sub _) (heven.add _) hunit

end Evaluation

/-! ### Skew-Hermitian matrices -/

section Skew

open Matrix ComplexOrder

variable {d : ℕ} {A : Matrix (Fin d) (Fin d) ℂ}

theorem conjTranspose_aeval_parityPart (hA : Aᴴ = -A) (e : ℕ) :
    (aeval A (parityPart ℂ e))ᴴ = (-1) ^ e * aeval A (parityPart ℂ e) := by
  rw [aeval_parityPart, conjTranspose_sum, Finset.mul_sum]
  refine Finset.sum_congr rfl fun k _ => ?_
  rw [conjTranspose_smul, conjTranspose_pow, hA, neg_pow, pow_add, pow_mul, neg_one_sq, one_pow, one_mul,
    star_natCast, mul_smul_comm]

theorem conjTranspose_numerator (hA : Aᴴ = -A) : (aeval A (numerator ℂ))ᴴ = aeval A (denominator ℂ) := by
  rw [numerator, map_add, conjTranspose_add, conjTranspose_aeval_parityPart hA, conjTranspose_aeval_parityPart hA,
    denominator, map_sub]
  simp [sub_eq_add_neg]

/-- At a skew-Hermitian matrix the denominator is invertible. -/
theorem isUnit_denominator (hA : Aᴴ = -A) : IsUnit (aeval A (denominator ℂ)) := by
  rw [Matrix.isUnit_iff_isUnit_det, isUnit_iff_ne_zero, ne_eq, ← exists_mulVec_eq_zero_iff]
  rintro ⟨x, hx, hzero⟩
  set V := aeval A (parityPart ℂ 0) with hV
  set U := aeval A (parityPart ℂ 1) with hU
  have hVH : Vᴴ = V := by simpa using conjTranspose_aeval_parityPart hA 0
  have hUH : Uᴴ = -U := by simpa using conjTranspose_aeval_parityPart hA 1
  have hcomm : V * U = U * V := by rw [hV, hU, ← map_mul, ← map_mul, mul_comm]
  have heq : V *ᵥ x = U *ᵥ x := by
    rw [denominator, map_sub, sub_mulVec, sub_eq_zero] at hzero
    exact hzero
  -- the square of the common length is its own negative
  have hdot : star (V *ᵥ x) ⬝ᵥ (V *ᵥ x) = -(star (V *ᵥ x) ⬝ᵥ (V *ᵥ x)) := by
    calc star (V *ᵥ x) ⬝ᵥ (V *ᵥ x)
        = star (V *ᵥ x) ⬝ᵥ (U *ᵥ x) := by rw [heq]
      _ = star x ⬝ᵥ ((V * U) *ᵥ x) := by rw [star_mulVec, hVH, ← dotProduct_mulVec, mulVec_mulVec]
      _ = -(star (U *ᵥ x) ⬝ᵥ (V *ᵥ x)) := by
        rw [star_mulVec, hUH, ← dotProduct_mulVec, mulVec_mulVec, hcomm, neg_mul, neg_mulVec, dotProduct_neg, neg_neg]
      _ = -(star (V *ᵥ x) ⬝ᵥ (V *ᵥ x)) := by rw [heq]
  have hVx : V *ᵥ x = 0 := dotProduct_star_self_eq_zero.1 (self_eq_neg.1 hdot)
  have hUx : U *ᵥ x = 0 := heq ▸ hVx
  -- coprime polynomials annihilate no common vector
  obtain ⟨p, q, hpq⟩ := isCoprime_parts ℂ
  refine hx ?_
  calc x = aeval A (p * parityPart ℂ 0 + q * parityPart ℂ 1) *ᵥ x := by rw [hpq, map_one, one_mulVec]
    _ = aeval A p *ᵥ (V *ᵥ x) + aeval A q *ᵥ (U *ᵥ x) := by
      rw [map_add, map_mul, map_mul, add_mulVec, mulVec_mulVec, mulVec_mulVec]
    _ = 0 := by rw [hVx, hUx, mulVec_zero, mulVec_zero, add_zero]

variable {a : Mat ℂ}

theorem pade_mem_unitaryGroup (ha : a.HasShape d d) (hskew : (a.toMatrix d d)ᴴ = -a.toMatrix d d) :
    (pade a).toMatrix d d ∈ unitaryGroup (Fin d) ℂ := by
  set D := aeval (a.toMatrix d d) (denominator ℂ) with hD
  set N := aeval (a.toMatrix d d) (numerator ℂ) with hN
  set P := (pade a).toMatrix d d with hP
  have hunit : IsUnit D := isUnit_denominator hskew
  have hquot : D * P = N := denominator_mul_pade (fun z => norm_le_zero_iff) ha hunit
  have hNH : Nᴴ = D := conjTranspose_numerator hskew
  have hDH : Dᴴ = N := by rw [← hNH, conjTranspose_conjTranspose]
  have hcomm : N * D = D * N := by rw [hD, hN, ← map_mul, ← map_mul, mul_comm]
  rw [mem_unitaryGroup_iff]
  -- multiply by `D` from the left and by its conjugate transpose from the right
  apply hunit.mul_left_cancel
  apply hunit.star.mul_right_cancel
  calc D * (P * star P) * star D = D * P * (D * P)ᴴ := by
        rw [conjTranspose_mul]
        simp only [star_eq_conjTranspose, Matrix.mul_assoc]
    _ = N * D := by rw [hquot, hNH]
    _ = D * 1 * star D := by rw [hcomm, mul_one, star_eq_conjTranspose, hDH]

/-- A halved skew-Hermitian matrix is skew-Hermitian. -/
theorem conjTranspose_scale_halfPower (s : ℕ) (ha : a.HasShape d d) (hskew : (a.toMatrix d d)ᴴ = -a.toMatrix d d) :
    ((a.scale (halfPower s)).toMatrix d d)ᴴ = -(a.scale (halfPower s)).toMatrix d d := by
  rw [toMatrix_scale ha, conjTranspose_smul, hskew, smul_neg, halfPower_eq]
  simp

theorem exponentialWith_mem_unitaryGroup (s : ℕ) (ha : a.HasShape d d)
    (hskew : (a.toMatrix d d)ᴴ = -a.toMatrix d d) :
    (exponentialWith s a).toMatrix d d ∈ unitaryGroup (Fin d) ℂ := by
  rw [exponentialWith, toMatrix_squareTimes s (hasShape_pade (ha.scale _))]
  exact pow_mem (pade_mem_unitaryGroup (ha.scale _) (conjTranspose_scale_halfPower s ha hskew)) _

/-- The exponential of a skew-Hermitian matrix is unitary, without error. -/
theorem exponential_mem_unitaryGroup (ha : a.HasShape d d) (hskew : (a.toMatrix d d)ᴴ = -a.toMatrix d d) :
    a.exponential.toMatrix d d ∈ unitaryGroup (Fin d) ℂ := by
  unfold exponential
  split
  · rename_i hrows
    obtain rfl : d = 0 := ha.rows.symm.trans hrows
    rw [mem_unitaryGroup_iff]
    exact Subsingleton.elim _ _
  · rename_i hrows
    obtain rfl : d = 1 := ha.rows.symm.trans hrows
    have hentry : star (a.entry 0 0) = -a.entry 0 0 := congrFun (congrFun hskew 0) 0
    have hunit : ComplexScalar.exp (a.entry 0 0) * star (ComplexScalar.exp (a.entry 0 0)) = 1 := by
      change Complex.exp (a.entry 0 0) * star (Complex.exp (a.entry 0 0)) = 1
      rw [Complex.star_def, ← Complex.exp_conj, ← Complex.star_def, hentry, ← Complex.exp_add, add_neg_cancel,
        Complex.exp_zero]
    rw [mem_unitaryGroup_iff, single, toMatrix_ofFn]
    ext i j
    obtain rfl := Subsingleton.elim i j
    simpa [Matrix.mul_apply] using hunit
  · exact exponentialWith_mem_unitaryGroup _ ha hskew

end Skew

end QubitDynamics.Mat
