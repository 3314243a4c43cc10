import QubitDynamics.Proofs.Elimination
import QubitDynamics.Proofs.ExactScalar

/-! Pivots of an invertible system. An elimination step keeps the rows above its
pivot, so the pivot of a column is still on the diagonal when the elimination is
finished; there it is also what back substitution divides by. An invertible matrix
leaves no zero on the diagonal. No division is therefore by zero, neither on the way
down nor on the way up, and the rows that are found are the only solution. -/

namespace QubitDynamics.Mat

variable {K R : Type} [Field K] [LinearOrder R] [ComplexScalar K R] [Zero R]
variable {n c : ℕ} {a : Mat K}

/-! ### Rows that are kept -/

theorem hasShape_eliminated (ha : a.HasShape n c) (k : ℕ) : (a.eliminated k).HasShape n c := by
  induction k with
  | zero => exact ha
  | succ k ih => exact ⟨ih.rows, ih.cols⟩

/-- Clearing the rows below changes no row from the pivot upwards. -/
theorem entry_clearBelow_of_le (ha : a.HasShape n c) {i j k : ℕ} (hik : i ≤ k) (hi : i < n) (hj : j < c) :
    (a.clearBelow k).entry i j = a.entry i j := by
  rw [clearBelow, entry_ofFn _ (by rwa [ha.rows]) (by rwa [ha.cols]), if_pos (.inl hik)]

/-- A step keeps the rows above its pivot. -/
theorem entry_eliminate_of_lt (ha : a.HasShape n c) {i j k : ℕ} (hik : i < k) (hk : k < n) (hj : j < c) :
    (a.eliminate k).entry i j = a.entry i j := by
  have hpivot := (pivotRow_bounds ha hk).1
  have hs : (a.swapRows k (a.pivotRow k)).HasShape n c := ⟨ha.rows, ha.cols⟩
  rw [eliminate, entry_clearBelow_of_le hs hik.le (by omega) hj, entry_swapRows ha (by omega) hj, if_neg (by omega),
    if_neg (by omega)]

/-- Rows above the next pivot are finished. -/
theorem entry_eliminated_of_lt (ha : a.HasShape n c) {i j k l : ℕ} (hik : i < k) (hkl : k ≤ l) (hl : l ≤ n)
    (hj : j < c) : (a.eliminated l).entry i j = (a.eliminated k).entry i j := by
  induction l, hkl using Nat.le_induction with
  | base => rfl
  | succ l hkl ih =>
    rw [eliminated, entry_eliminate_of_lt (hasShape_eliminated ha l) (by omega) (by omega) hj, ih (by omega)]

/-! ### Pivots -/

/-- The entry of column `k` that the rows below it are divided by: it stands on the diagonal once
the pivot row of the partly eliminated matrix has been swapped there. -/
def pivot (a : Mat K) (k : ℕ) : K :=
  ((a.eliminated k).swapRows k ((a.eliminated k).pivotRow k)).entry k k

/-- The pivots are the diagonal of the eliminated matrix. -/
theorem entry_eliminated_self (ha : a.HasShape n c) (hnc : n ≤ c) {k : ℕ} (hk : k < n) :
    (a.eliminated n).entry k k = a.pivot k := by
  have hstep := hasShape_eliminated ha k
  have hs : ((a.eliminated k).swapRows k ((a.eliminated k).pivotRow k)).HasShape n c := ⟨hstep.rows, hstep.cols⟩
  rw [entry_eliminated_of_lt ha (Nat.lt_succ_self k) hk le_rfl (by omega), eliminated, eliminate,
    entry_clearBelow_of_le hs le_rfl hk (by omega), pivot]

/-! ### Invertible systems -/

section Solve

variable {m : ℕ} {lhs rhs : Mat K} (habs : ∀ z : K, ComplexScalar.abs z ≤ (0 : R) ↔ z = 0)

include habs

theorem pivot_ne_zero (hl : lhs.HasShape n n) (hr : rhs.HasShape n m) (hunit : IsUnit (lhs.toMatrix n n)) {k : ℕ}
    (hk : k < n) : (lhs.beside rhs).pivot k ≠ 0 := by
  rw [← entry_eliminated_self (hasShape_beside hl hr) (Nat.le_add_right n m) hk]
  exact entry_eliminated_ne_zero habs hl hr hunit hk

/-- An invertible system has no other solution. -/
theorem eq_solve (hl : lhs.HasShape n n) (hr : rhs.HasShape n m) (hunit : IsUnit (lhs.toMatrix n n)) {x : Mat K}
    (hx : x.HasShape n m) (h : lhs.mul x = rhs) : x = solve lhs rhs := by
  obtain ⟨F, hF⟩ := hunit.exists_left_inv
  have hsame : lhs.toMatrix n n * x.toMatrix n m = lhs.toMatrix n n * (solve lhs rhs).toMatrix n m := by
    rw [mul_solve habs hl hr hunit, ← toMatrix_mul hl hx, h]
  have hcancel := congrArg (F * ·) hsame
  simp only [← Matrix.mul_assoc, hF, Matrix.one_mul] at hcancel
  exact hx.ext (hasShape_solve hl hr) hcancel

end Solve

/-- Every system with an invertible matrix is solved, and by one matrix only: no pivot vanishes in the
elimination, no diagonal entry in the back substitution, and what is found is the solution. -/
theorem mul_solve_of_det_ne_zero (n m : ℕ) (lhs rhs : Mat ℂ) (hl : lhs.HasShape n n) (hr : rhs.HasShape n m)
    (hdet : (lhs.toMatrix n n).det ≠ 0) :
    (∀ k < n, (lhs.beside rhs).pivot k ≠ 0) ∧
      (∀ i < n, ((lhs.beside rhs).eliminated n).entry i i ≠ 0) ∧
      (solve lhs rhs).HasShape n m ∧ lhs.mul (solve lhs rhs) = rhs ∧
      ∀ x : Mat ℂ, x.HasShape n m → lhs.mul x = rhs → x = solve lhs rhs := by
  have habs := ComplexScalar.abs_le_zero_iff
  have hunit : IsUnit (lhs.toMatrix n n) := (Matrix.isUnit_iff_isUnit_det _).2 (isUnit_iff_ne_zero.2 hdet)
  have hx : (solve lhs rhs).HasShape n m := hasShape_solve hl hr
  refine ⟨fun k hk => pivot_ne_zero habs hl hr hunit hk, fun i hi => entry_eliminated_ne_zero habs hl hr hunit hi, hx,
    (hl.mul hx).ext hr ?_, fun x hxs h => eq_solve habs hl hr hunit hxs h⟩
  rw [toMatrix_mul hl hx, mul_solve habs hl hr hunit]

/-- Two right-hand sides and a matrix with nothing on its diagonal. -/
theorem mul_solve_of_det_ne_zero_hollow :
    let lhs : Mat ℂ := .ofFn 3 3 fun r c => if r = c then 0 else Complex.I + c
    let rhs : Mat ℂ := .ofFn 3 2 fun r c => r + 2 * c * Complex.I
    (lhs.toMatrix 3 3).det ≠ 0 ∧ (∀ k < 3, (lhs.beside rhs).pivot k ≠ 0) ∧
      (∀ i < 3, ((lhs.beside rhs).eliminated 3).entry i i ≠ 0) ∧ lhs.mul (solve lhs rhs) = rhs := by
  intro lhs rhs
  have hdet : (lhs.toMatrix 3 3).det ≠ 0 := by
    rw [toMatrix_ofFn, Matrix.det_fin_three]
    intro hzero
    have himaginary := congrArg Complex.im hzero
    norm_num at himaginary
  obtain ⟨hpivot, hdiag, -, hsolve, -⟩ :=
    mul_solve_of_det_ne_zero 3 2 lhs rhs (hasShape_ofFn 3 3 _) (hasShape_ofFn 3 2 _) hdet
  exact ⟨hdet, hpivot, hdiag, hsolve⟩

end QubitDynamics.Mat
