import QubitDynamics.Proofs.Halving
import QubitDynamics.Proofs.StepOperator

/-! Exponentials of opposite matrices. A matrix and its negative have the same norm
and are halved equally often, and changing the sign of the halved matrix exchanges
numerator and denominator of the approximant. Both are invertible, so the two
approximants are inverse to each other, and so are their powers: `exp A · exp (-A)`
is the identity without error. The negative of a skew-Hermitian matrix is its
conjugate transpose, and its exponential is unitary. -/

namespace QubitDynamics

namespace Mat

open Polynomial

variable {d : ℕ} {a b : Mat ℂ}

/-! ### Numerator and denominator -/

theorem aeval_neg_parityPart (A : Matrix (Fin d) (Fin d) ℂ) (e : ℕ) :
    aeval (-A) (parityPart ℂ e) = (-1) ^ e * aeval A (parityPart ℂ e) := by
  rw [aeval_parityPart, aeval_parityPart, Finset.mul_sum]
  refine Finset.sum_congr rfl fun k _ => ?_
  rw [neg_pow, pow_add, pow_mul, neg_one_sq, one_pow, one_mul, mul_smul_comm]

theorem aeval_neg_denominator (A : Matrix (Fin d) (Fin d) ℂ) :
    aeval (-A) (denominator ℂ) = aeval A (numerator ℂ) := by
  rw [denominator, map_sub, aeval_neg_parityPart, aeval_neg_parityPart, numerator, map_add, pow_zero, one_mul, pow_one,
    neg_one_mul, sub_neg_eq_add]

theorem aeval_neg_numerator (A : Matrix (Fin d) (Fin d) ℂ) :
    aeval (-A) (numerator ℂ) = aeval A (denominator ℂ) := by
  rw [← aeval_neg_denominator, neg_neg]

/-- The approximants at opposite matrices are inverse to each other. -/
theorem pade_mul_pade (ha : a.HasShape d d) (hb : b.HasShape d d) (hneg : b.toMatrix d d = -a.toMatrix d d)
    (hden : IsUnit (aeval (a.toMatrix d d) (denominator ℂ))) (hnum : IsUnit (aeval (a.toMatrix d d) (numerator ℂ))) :
    (pade a).toMatrix d d * (pade b).toMatrix d d = 1 := by
  have hfirst := denominator_mul_pade ComplexScalar.abs_le_zero_iff ha hden
  have hsecond := denominator_mul_pade ComplexScalar.abs_le_zero_iff hb (by rwa [hneg, aeval_neg_denominator])
  rw [hneg, aeval_neg_denominator, aeval_neg_numerator] at hsecond
  apply hden.mul_left_cancel
  rw [← mul_assoc, hfirst, hsecond, mul_one]

/-! ### Halved opposites -/

theorem oneNorm_neg (ha : a.HasShape d d) : ((a.scale (-1)).oneNorm : ℝ) = a.oneNorm := by
  have hsum : ∀ j < d, (a.scale (-1)).columnSum j = a.columnSum j := fun j hj => by
    rw [columnSum_scale ha _ hj, norm_neg, norm_one, one_mul]
  exact oneNorm_eq_of_columnSum (ha.scale _) ha (fun j hj => ⟨j, hj, hsum j hj⟩) fun j hj => ⟨j, hj, (hsum j hj).symm⟩

theorem toMatrix_scale_neg (ha : a.HasShape d d) (k : ℂ) :
    ((a.scale (-1)).scale k).toMatrix d d = -(a.scale k).toMatrix d d := by
  rw [toMatrix_scale (ha.scale _), toMatrix_scale ha, toMatrix_scale ha, neg_one_smul, smul_neg]

/-- Halving also makes the numerator invertible. -/
theorem isUnit_numerator_halved (ha : a.HasShape d d) :
    IsUnit (aeval ((a.scale (halfPower a.squarings)).toMatrix d d) (numerator ℂ)) := by
  have hunit := isUnit_denominator_halved (ha.scale (-1))
  rwa [squarings_eq_of_oneNorm (oneNorm_neg ha), toMatrix_scale_neg ha, aeval_neg_denominator] at hunit

/-- The exponentials of opposite scalars are inverse to each other. -/
theorem exponential_mul_neg_single (ha : a.HasShape 1 1) :
    a.exponential.toMatrix 1 1 * (a.scale (-1)).exponential.toMatrix 1 1 = 1 := by
  have hentry : (a.scale (-1)).entry 0 0 = -1 * a.entry 0 0 := congrFun (congrFun (toMatrix_scale ha (-1)) 0) 0
  rw [exponential_eq_single ha, exponential_eq_single (ha.scale _), hentry, single, single, toMatrix_ofFn, toMatrix_ofFn]
  ext i j
  rw [Subsingleton.elim i j]
  simp [Matrix.mul_apply, ← Complex.exp_add]

/-- The exponentials of opposite matrices are inverse to each other. -/
theorem exponential_mul_neg (ha : a.HasShape d d) : a.exponential.mul (a.scale (-1)).exponential = identity d := by
  have hshape := hasShape_exponential ha
  have hshape' := hasShape_exponential (ha.scale (-1))
  refine (hshape.mul hshape').ext (hasShape_identity d) ?_
  rw [toMatrix_mul hshape hshape', toMatrix_identity]
  rcases Nat.lt_or_ge d 2 with hd | hd
  · interval_cases d
    · exact Subsingleton.elim _ _
    · exact exponential_mul_neg_single ha
  · have hhalved := ha.scale (halfPower a.squarings)
    have hhalved' := (ha.scale (-1)).scale (halfPower a.squarings)
    rw [toMatrix_exponential ha hd, toMatrix_exponential (ha.scale (-1)) hd, squarings_eq_of_oneNorm (oneNorm_neg ha)]
    exact pow_mul_pow_eq_one _ (pade_mul_pade hhalved hhalved' (toMatrix_scale_neg ha _) (isUnit_denominator_halved ha)
      (isUnit_numerator_halved ha))

/-- The exponential of a skew-Hermitian matrix is unitary. -/
theorem exponential_mem_unitaryGroup_of_skew (ha : a.HasShape d d) (hskew : a.conjTranspose = a.scale (-1)) :
    a.exponential.toMatrix d d ∈ Matrix.unitaryGroup (Fin d) ℂ := by
  refine exponential_mem_unitaryGroup ha ?_
  rw [← toMatrix_conjTranspose ha, hskew, toMatrix_scale ha, neg_one_smul]

end Mat

/-- The systems that the exponentials of a matrix and of its negative solve are invertible, and these exponentials are
inverse to each other. The exponential of a skew-Hermitian matrix is unitary, and so is the one of a Hermitian term
for every duration. -/
theorem exponential_inverse_unitary :
    (∀ (d : ℕ) (a : Mat ℂ), a.HasShape d d →
      let parts := (a.scale (Mat.halfPower a.squarings)).padeParts
      IsUnit ((parts.2.sub parts.1).toMatrix d d) ∧ IsUnit ((parts.2.add parts.1).toMatrix d d) ∧
        a.exponential.mul (a.scale (-1)).exponential = .identity d ∧
        (a.conjTranspose = a.scale (-1) → a.exponential.toMatrix d d ∈ Matrix.unitaryGroup (Fin d) ℂ)) ∧
      ∀ t : Term ℂ, t.WellFormed → t.matrix.conjTranspose = t.matrix → ∀ x : ℝ,
        (t.exp x).toMatrix (2 ^ t.arity) (2 ^ t.arity) ∈ Matrix.unitaryGroup (Fin (2 ^ t.arity)) ℂ := by
  refine ⟨fun d a ha => ?_, fun t ht hherm x => ht.exp_mem_unitaryGroup hherm x⟩
  have hden := Mat.isUnit_denominator_halved ha
  have hnum := Mat.isUnit_numerator_halved ha
  rw [← Mat.toMatrix_padeParts_sub (ha.scale _)] at hden
  rw [← Mat.toMatrix_padeParts_add (ha.scale _)] at hnum
  exact ⟨hden, hnum, Mat.exponential_mul_neg ha, Mat.exponential_mem_unitaryGroup_of_skew ha⟩

/-- A matrix of large norm that is not skew-Hermitian, one that is, and a term on a pair in descending order. -/
theorem exponential_inverse_unitary_halved :
    let general : Mat ℂ := .ofFn 3 3 fun r c => 20 * r + c * Complex.I
    let skew : Mat ℂ := .ofFn 2 2 fun r c => (r - c) + (r + c) * Complex.I
    let hermitian : Mat ℂ := .ofFn (2 ^ 2) (2 ^ 2) fun r c => (r + c) + (r - c) * Complex.I
    let pair : Term ℂ := ⟨.dense [2, 0] hermitian, none⟩
    general.exponential.mul (general.scale (-1)).exponential = .identity 3 ∧
      skew.conjTranspose = skew.scale (-1) ∧ skew.exponential.toMatrix 2 2 ∈ Matrix.unitaryGroup (Fin 2) ℂ ∧
      pair.WellFormed ∧ pair.matrix.conjTranspose = pair.matrix ∧
      (pair.exp (7 : ℝ)).toMatrix (2 ^ 2) (2 ^ 2) ∈ Matrix.unitaryGroup (Fin (2 ^ 2)) ℂ := by
  intro general skew hermitian pair
  have hshape : hermitian.HasShape (2 ^ 2) (2 ^ 2) := ⟨rfl, rfl⟩
  have hpair : pair.WellFormed := ⟨by decide, hshape⟩
  have hskewShape : skew.HasShape 2 2 := ⟨rfl, rfl⟩
  have hskew : skew.conjTranspose = skew.scale (-1) := by
    refine hskewShape.conjTranspose.ext (hskewShape.scale _) ?_
    rw [Mat.toMatrix_conjTranspose hskewShape, Mat.toMatrix_scale hskewShape, Mat.toMatrix_ofFn]
    ext r c
    simp only [Matrix.conjTranspose_apply, Matrix.smul_apply, Matrix.of_apply, smul_eq_mul, star_add, star_sub,
      star_mul', star_natCast, Complex.star_def, Complex.conj_I]
    ring
  have hherm : hermitian.conjTranspose = hermitian := by
    refine hshape.conjTranspose.ext hshape ?_
    rw [Mat.toMatrix_conjTranspose hshape, Mat.toMatrix_ofFn]
    ext r c
    simp only [Matrix.conjTranspose_apply, Matrix.of_apply, star_add, star_sub, star_mul', star_natCast,
      Complex.star_def, Complex.conj_I]
    ring
  obtain ⟨hmatrices, hterms⟩ := exponential_inverse_unitary
  obtain ⟨-, -, hinverse, -⟩ := hmatrices 3 general ⟨rfl, rfl⟩
  obtain ⟨-, -, -, hunitary⟩ := hmatrices 2 skew hskewShape
  exact ⟨hinverse, hskew, hunitary hskew, hpair, hherm, hterms pair hpair hherm 7⟩

end QubitDynamics
