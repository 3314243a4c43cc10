import Mathlib.Algebra.BigOperators.Intervals
import Mathlib.Algebra.Order.BigOperators.Group.LocallyFinite
import Mathlib.LinearAlgebra.Matrix.Block
import Mathlib.LinearAlgebra.Matrix.Swap
import QubitDynamics.Linear.Solve
import QubitDynamics.Proofs.MatrixView

/-! Gaussian elimination solves linear systems. One elimination step is a
multiplication by an invertible matrix from the left and clears one more column
below the diagonal; so the eliminated matrix is upper triangular, and the products
of its diagonal entries and the determinant of the given matrix vanish together.
Where they do not, no pivot vanishes and the rows found from the last one upwards
solve the system. All of this holds over every field with a modulus that vanishes
at zero only. -/

namespace QubitDynamics.Mat

theorem hasShape_solve {K R : Type} [Zero K] [Add K] [Sub K] [Mul K] [Div K] [Zero R] [LE R] [DecidableLE R]
    [ComplexScalar K R] {n m : ℕ} {lhs rhs : Mat K} (hl : lhs.HasShape n n) (hr : rhs.HasShape n m) :
    (solve lhs rhs).HasShape n m := ⟨hl.rows, hr.cols⟩

variable {K R : Type} [Field K] [LinearOrder R] [ComplexScalar K R]

/-! ### Pivots -/

theorem pivotFrom_mem (a : Mat K) (col best : ℕ) (rows : List ℕ) : pivotFrom a col best rows ∈ best :: rows := by
  induction rows generalizing best with
  | nil => exact List.mem_singleton_self best
  | cons i rows ih =>
    unfold pivotFrom
    split
    · exact List.mem_cons_of_mem best (ih i)
    · rcases List.mem_cons.1 (ih best) with h | h
      · rw [h]
        exact List.mem_cons_self
      · exact List.mem_cons_of_mem best (List.mem_cons_of_mem i h)

theorem abs_le_pivotFrom (a : Mat K) (col best : ℕ) (rows : List ℕ) :
    ∀ i ∈ best :: rows,
      ComplexScalar.abs (a.entry i col) ≤ ComplexScalar.abs (a.entry (pivotFrom a col best rows) col) := by
  induction rows generalizing best with
  | nil => simp [pivotFrom]
  | cons r rows ih =>
    unfold pivotFrom
    split
    · rename_i hle
      have hr := ih r r List.mem_cons_self
      exact List.forall_mem_cons.2 ⟨hle.trans hr, ih r⟩
    · rename_i hlt
      obtain ⟨hbest, hrest⟩ := List.forall_mem_cons.1 (ih best)
      exact List.forall_mem_cons.2 ⟨hbest, List.forall_mem_cons.2 ⟨(not_le.1 hlt).le.trans hbest, hrest⟩⟩

variable {n c k : ℕ} {a : Mat K}

theorem mem_rowsFrom {i : ℕ} (hk : k < n) : i ∈ k :: List.range' (k + 1) (n - (k + 1)) ↔ k ≤ i ∧ i < n := by
  rw [List.mem_cons, List.mem_range'_1]
  omega

theorem pivotRow_bounds (ha : a.HasShape n c) (hk : k < n) : k ≤ a.pivotRow k ∧ a.pivotRow k < n := by
  rw [pivotRow, ha.rows, ← mem_rowsFrom hk]
  exact pivotFrom_mem a k k _

theorem abs_le_pivotRow (ha : a.HasShape n c) {i : ℕ} (hk : k ≤ i) (hi : i < n) :
    ComplexScalar.abs (a.entry i k) ≤ ComplexScalar.abs (a.entry (a.pivotRow k) k) := by
  rw [pivotRow, ha.rows]
  exact abs_le_pivotFrom a k k _ i ((mem_rowsFrom (by omega)).2 ⟨hk, hi⟩)

/-! ### Row operations -/

/-- One matrix comes from another by reversible row operations. -/
def RowEquivalent (A B : Matrix (Fin n) (Fin c) K) : Prop :=
  ∃ G : Matrix (Fin n) (Fin n) K, IsUnit G ∧ B = G * A

theorem RowEquivalent.trans {A B C : Matrix (Fin n) (Fin c) K} (h : RowEquivalent A B) (h' : RowEquivalent B C) :
    RowEquivalent A C := by
  obtain ⟨G, hG, rfl⟩ := h
  obtain ⟨G', hG', rfl⟩ := h'
  exact ⟨G' * G, hG'.mul hG, by rw [Matrix.mul_assoc]⟩

theorem entry_swapRows (ha : a.HasShape n c) {i j p q : ℕ} (hi : i < n) (hj : j < c) :
    (a.swapRows p q).entry i j = a.entry (if i = p then q else if i = q then p else i) j :=
  entry_ofFn _ (by rwa [ha.rows]) (by rwa [ha.cols])

theorem rowEquivalent_swapRows (ha : a.HasShape n c) {p q : ℕ} (hp : p < n) (hq : q < n) :
    RowEquivalent (a.toMatrix n c) ((a.swapRows p q).toMatrix n c) := by
  refine ⟨Matrix.swap K ⟨p, hp⟩ ⟨q, hq⟩, IsUnit.of_mul_eq_one _ (Matrix.swap_mul_self _ _), ?_⟩
  ext i j
  rw [toMatrix_apply, entry_swapRows ha i.isLt j.isLt]
  by_cases hip : i = ⟨p, hp⟩
  · subst hip
    simp
  · by_cases hiq : i = ⟨q, hq⟩
    · subst hiq
      rw [Matrix.swap_mul_apply_right]
      simp_all [Fin.ext_iff]
    · rw [Matrix.swap_mul_of_ne hip hiq]
      simp_all [Fin.ext_iff]

variable [Zero R]

/-- The multiples of row `k` that are subtracted from the rows below. -/
def multiplier (a : Mat K) (k i : ℕ) : K := if i ≤ k then 0 else a.entry i k / a.entry k k

theorem entry_clearBelow (habs : ∀ z : K, ComplexScalar.abs z ≤ (0 : R) ↔ z = 0) (ha : a.HasShape n c)
    (hrow : ∀ j < k, a.entry k j = 0) {i j : ℕ} (hi : i < n) (hj : j < c) :
    (a.clearBelow k).entry i j = a.entry i j - a.multiplier k i * a.entry k j := by
  have hfactor : (Array.ofFn fun i : Fin a.rows => a.entry i k / a.entry k k).getD i 0 =
      a.entry i k / a.entry k k := by
    simp [Array.getD_eq_getD_getElem?, ha.rows, hi]
  rw [clearBelow, entry_ofFn _ (by rwa [ha.rows]) (by rwa [ha.cols])]
  simp only [hfactor, multiplier]
  by_cases hik : i ≤ k
  · simp [hik]
  · by_cases hjk : j < k
    · simp [hjk, hrow j hjk]
    · by_cases hzero : a.entry i k / a.entry k k = 0
      · simp [habs, hzero]
      · simp [hik, hjk, habs, hzero]

theorem rowEquivalent_clearBelow (habs : ∀ z : K, ComplexScalar.abs z ≤ (0 : R) ↔ z = 0) (ha : a.HasShape n c)
    (hrow : ∀ j < k, a.entry k j = 0) (hk : k < n) :
    RowEquivalent (a.toMatrix n c) ((a.clearBelow k).toMatrix n c) := by
  -- the subtracted multiples of row `k` form a matrix `N` with `N ^ 2 = 0`
  let N : Matrix (Fin n) (Fin n) K :=
    Matrix.vecMulVec (fun i => a.multiplier k i) (Pi.single (⟨k, hk⟩ : Fin n) 1)
  have hN : N * N = 0 := by
    rw [Matrix.vecMulVec_mul_vecMulVec]
    simp [multiplier]
  refine ⟨1 - N, IsUnit.of_mul_eq_one (1 + N) ?_, ?_⟩
  · rw [sub_mul, one_mul, mul_add, mul_one, hN]
    simp
  · ext i j
    rw [toMatrix_apply, entry_clearBelow habs ha hrow i.isLt j.isLt, Matrix.sub_mul, Matrix.one_mul,
      Matrix.vecMulVec_mul, Matrix.single_one_vecMul]
    rfl

/-! ### Elimination -/

/-- The first `k` columns vanish below the diagonal. -/
def Cleared (n k : ℕ) (a : Mat K) : Prop := ∀ i j, j < k → j < i → i < n → a.entry i j = 0

theorem cleared_swapRows (ha : a.HasShape n c) (hnc : n ≤ c) (h : Cleared n k a) {p : ℕ} (hk : k < n) (hkp : k ≤ p)
    (hp : p < n) : Cleared n k (a.swapRows k p) := by
  intro i j hj hji hi
  rw [entry_swapRows ha hi (by omega)]
  apply h _ j hj
  · split_ifs <;> omega
  · split_ifs <;> omega

variable (habs : ∀ z : K, ComplexScalar.abs z ≤ (0 : R) ↔ z = 0)

include habs

/-- If the pivot vanishes, so does everything below it. -/
theorem eq_zero_of_pivot (ha : a.HasShape n c) (hpivot : a.entry (a.pivotRow k) k = 0) {i : ℕ}
    (hki : k ≤ i) (hi : i < n) : a.entry i k = 0 := by
  have hle := abs_le_pivotRow ha hki hi
  rw [hpivot] at hle
  exact (habs _).1 (hle.trans ((habs 0).2 rfl))

/-- One step clears one more column. -/
theorem cleared_eliminate (ha : a.HasShape n c) (hnc : n ≤ c) (hk : k < n) (h : Cleared n k a) :
    Cleared n (k + 1) (a.eliminate k) := by
  obtain ⟨hkp, hp⟩ := pivotRow_bounds ha hk
  have hswapped := cleared_swapRows ha hnc h hk hkp hp
  have hs : (a.swapRows k (a.pivotRow k)).HasShape n c := ⟨ha.rows, ha.cols⟩
  intro i j hj hji hi
  rw [eliminate, entry_clearBelow habs hs (fun j hj => hswapped k j hj hj hk) hi (by omega)]
  by_cases hjk : j < k
  · rw [hswapped i j hjk hji hi, hswapped k j hjk hjk hk, mul_zero, sub_zero]
  · obtain rfl : j = k := by omega
    have hpivot : (a.swapRows j (a.pivotRow j)).entry j j = a.entry (a.pivotRow j) j := by
      rw [entry_swapRows ha hk (by omega), if_pos rfl]
    rw [multiplier, if_neg (by omega)]
    by_cases hzero : a.entry (a.pivotRow j) j = 0
    · have hentry : (a.swapRows j (a.pivotRow j)).entry i j = 0 := by
        rw [entry_swapRows ha hi (by omega)]
        apply eq_zero_of_pivot habs ha hzero <;> split_ifs <;> omega
      simp [hentry]
    · rw [div_mul_cancel₀ _ (by rwa [hpivot]), sub_self]

theorem rowEquivalent_eliminate (ha : a.HasShape n c) (hnc : n ≤ c) (hk : k < n) (h : Cleared n k a) :
    RowEquivalent (a.toMatrix n c) ((a.eliminate k).toMatrix n c) := by
  obtain ⟨hkp, hp⟩ := pivotRow_bounds ha hk
  have hs : (a.swapRows k (a.pivotRow k)).HasShape n c := ⟨ha.rows, ha.cols⟩
  refine (rowEquivalent_swapRows ha hk hp).trans (rowEquivalent_clearBelow habs hs ?_ hk)
  exact fun j hj => cleared_swapRows ha hnc h hk hkp hp k j hj hj hk

/-- After `k` steps the first `k` columns are cleared, by reversible row operations. -/
theorem eliminated_spec (ha : a.HasShape n c) (hnc : n ≤ c) (hk : k ≤ n) :
    (a.eliminated k).HasShape n c ∧ Cleared n k (a.eliminated k) ∧
      RowEquivalent (a.toMatrix n c) ((a.eliminated k).toMatrix n c) := by
  induction k with
  | zero => exact ⟨ha, fun _ j hj => absurd hj (Nat.not_lt_zero j), 1, isUnit_one, (Matrix.one_mul _).symm⟩
  | succ k ih =>
    obtain ⟨hshape, hcleared, hequiv⟩ := ih (by omega)
    refine ⟨⟨hshape.rows, hshape.cols⟩, cleared_eliminate habs hshape hnc (by omega) hcleared, ?_⟩
    exact hequiv.trans (rowEquivalent_eliminate habs hshape hnc (by omega) hcleared)

omit habs

/-! ### Back substitution -/

/-- Row `i` of the solution that back substitution finds, as a function of the column. -/
def backEntry (a : Mat K) (n i j : ℕ) : K := ((a.backRows n n).getD i #[]).getD j 0

/-- Rows that are found later come first. -/
theorem getD_backRows (a : Mat K) (n d e t : ℕ) :
    (a.backRows n (d + e)).getD (e + t) #[] = (a.backRows n d).getD t #[] := by
  induction e with
  | zero => rw [Nat.add_zero, Nat.zero_add]
  | succ e ih =>
    rw [← Nat.add_assoc, backRows, show e + 1 + t = e + t + 1 by omega, List.getD_cons_succ, ih]

/-- Each row is found from the rows below it. -/
theorem backEntry_eq (a : Mat K) {m i j : ℕ} (hcols : a.cols = n + m) (hi : i < n) (hj : j < m) :
    a.backEntry n i j = (a.entry i (n + j) -
      ∑ t ∈ Finset.range (n - (i + 1)), a.entry i (i + 1 + t) * a.backEntry n (i + 1 + t) j) / a.entry i i := by
  have hbelow (t : ℕ) : (a.backRows n n).getD (i + 1 + t) #[] = (a.backRows n (n - (i + 1))).getD t #[] := by
    have h := getD_backRows a n (n - (i + 1)) (i + 1) t
    rwa [show n - (i + 1) + (i + 1) = n by omega] at h
  have hrow : (a.backRows n n).getD i #[] = (a.backRows n (n - (i + 1) + 1)).getD 0 #[] := by
    have h := getD_backRows a n (n - (i + 1) + 1) i 0
    rwa [show n - (i + 1) + 1 + i = n by omega, Nat.add_zero] at h
  simp only [backEntry, hbelow, hrow, backRows, List.getD_cons_zero, show n - 1 - (n - (i + 1)) = i by omega]
  simp [Array.getD_eq_getD_getElem?, hcols, hj, rangeSum_eq_sum, Finset.sum_range]

/-- If no diagonal entry vanishes, back substitution solves a triangular system. -/
theorem sum_backEntry {m i j : ℕ} (hcols : a.cols = n + m) (htri : Cleared n n a) (hi : i < n) (hj : j < m)
    (hdiag : a.entry i i ≠ 0) : ∑ t ∈ Finset.range n, a.entry i t * a.backEntry n t j = a.entry i (n + j) := by
  have hlow : ∑ t ∈ Finset.Ico 0 i, a.entry i t * a.backEntry n t j = 0 :=
    Finset.sum_eq_zero fun t ht => by rw [htri i t (by simp_all; omega) (by simp_all) hi, zero_mul]
  rw [Finset.range_eq_Ico, ← Finset.sum_Ico_consecutive _ (Nat.zero_le i) hi.le, hlow, zero_add,
    Finset.sum_eq_sum_Ico_succ_bot hi, Finset.sum_Ico_eq_sum_range, backEntry_eq a hcols hi hj, mul_div_cancel₀ _ hdiag,
    sub_add_cancel]

/-! ### Solutions -/

section Solve

variable {m : ℕ} {lhs rhs : Mat K}

theorem hasShape_beside (hl : lhs.HasShape n n) (hr : rhs.HasShape n m) : (lhs.beside rhs).HasShape n (n + m) :=
  ⟨hl.rows, congrArg₂ (· + ·) hl.cols hr.cols⟩

theorem entry_beside_left (hl : lhs.HasShape n n) (rhs : Mat K) {i j : ℕ} (hi : i < n) (hj : j < n) :
    (lhs.beside rhs).entry i j = lhs.entry i j := by
  rw [beside, entry_ofFn _ (by rwa [hl.rows]) (by rw [hl.cols]; omega), if_pos (by rwa [hl.cols])]

theorem entry_beside_right (hl : lhs.HasShape n n) (hr : rhs.HasShape n m) {i j : ℕ} (hi : i < n) (hj : j < m) :
    (lhs.beside rhs).entry i (n + j) = rhs.entry i j := by
  rw [beside, entry_ofFn _ (by rwa [hl.rows]) (by rw [hl.cols, hr.cols]; omega), if_neg (by rw [hl.cols]; omega),
    hl.cols, Nat.add_sub_cancel_left]

theorem entry_solve (hl : lhs.HasShape n n) (hr : rhs.HasShape n m) {i j : ℕ} (hi : i < n) (hj : j < m) :
    (solve lhs rhs).entry i j = ((lhs.beside rhs).eliminated n).backEntry n i j := by
  rw [solve, entry_ofFn _ (by rwa [hl.rows]) (by rwa [hr.cols]), hl.rows]
  rfl

include habs

/-- The eliminated system: an invertible matrix has made the left-hand side upper triangular and
was applied to the right-hand sides as well. -/
theorem eliminated_beside (hl : lhs.HasShape n n) (hr : rhs.HasShape n m) :
    ∃ G : Matrix (Fin n) (Fin n) K, IsUnit G ∧
      ((lhs.beside rhs).eliminated n).toMatrix n n = G * lhs.toMatrix n n ∧
      (Matrix.of fun (i : Fin n) (j : Fin m) => ((lhs.beside rhs).eliminated n).entry i (n + j)) =
        G * rhs.toMatrix n m := by
  obtain ⟨-, -, G, hG, hequiv⟩ := eliminated_spec habs (hasShape_beside hl hr) (Nat.le_add_right n m) le_rfl
  have hentry (i : Fin n) {j : ℕ} (hj : j < n + m) : ((lhs.beside rhs).eliminated n).entry i j =
      ∑ t : Fin n, G i t * (lhs.beside rhs).entry t j := congrFun (congrFun hequiv i) ⟨j, hj⟩
  refine ⟨G, hG, ?_, ?_⟩
  · ext i j
    rw [toMatrix_apply, hentry i (by omega), Matrix.mul_apply]
    exact Finset.sum_congr rfl fun t _ => by rw [entry_beside_left hl rhs t.isLt j.isLt]; rfl
  · ext i j
    rw [Matrix.of_apply, hentry i (by omega), Matrix.mul_apply]
    exact Finset.sum_congr rfl fun t _ => by rw [entry_beside_right hl hr t.isLt j.isLt]; rfl

/-- Elimination of an invertible matrix leaves no zero on the diagonal. -/
theorem entry_eliminated_ne_zero (hl : lhs.HasShape n n) (hr : rhs.HasShape n m) (hunit : IsUnit (lhs.toMatrix n n))
    {i : ℕ} (hi : i < n) : ((lhs.beside rhs).eliminated n).entry i i ≠ 0 := by
  obtain ⟨-, htri, -⟩ := eliminated_spec habs (hasShape_beside hl hr) (Nat.le_add_right n m) le_rfl
  obtain ⟨G, hG, hleft, -⟩ := eliminated_beside habs hl hr
  have hupper : (((lhs.beside rhs).eliminated n).toMatrix n n).IsUpperTriangular := fun i j hij =>
    htri i j j.isLt hij i.isLt
  have hdet : (((lhs.beside rhs).eliminated n).toMatrix n n).det ≠ 0 := by
    rw [hleft]
    exact ((Matrix.isUnit_iff_isUnit_det _).1 (hG.mul hunit)).ne_zero
  rw [Matrix.det_of_isUpperTriangular hupper, Finset.prod_ne_zero_iff] at hdet
  exact hdet ⟨i, hi⟩ (Finset.mem_univ _)

/-- An invertible system is solved. -/
theorem mul_solve (hl : lhs.HasShape n n) (hr : rhs.HasShape n m) (hunit : IsUnit (lhs.toMatrix n n)) :
    lhs.toMatrix n n * (solve lhs rhs).toMatrix n m = rhs.toMatrix n m := by
  obtain ⟨hshape, htri, -⟩ := eliminated_spec habs (hasShape_beside hl hr) (Nat.le_add_right n m) le_rfl
  obtain ⟨G, hG, hleft, hright⟩ := eliminated_beside habs hl hr
  have hback : ((lhs.beside rhs).eliminated n).toMatrix n n * (solve lhs rhs).toMatrix n m =
      Matrix.of fun (i : Fin n) (j : Fin m) => ((lhs.beside rhs).eliminated n).entry i (n + j) := by
    ext i j
    rw [Matrix.of_apply, ← sum_backEntry hshape.cols htri i.isLt j.isLt
      (entry_eliminated_ne_zero habs hl hr hunit i.isLt), Finset.sum_range, Matrix.mul_apply]
    exact Finset.sum_congr rfl fun t _ => by rw [toMatrix_apply, toMatrix_apply, entry_solve hl hr t.isLt j.isLt]
  obtain ⟨F, hF⟩ := hG.exists_left_inv
  calc lhs.toMatrix n n * (solve lhs rhs).toMatrix n m
      = F * (G * lhs.toMatrix n n * (solve lhs rhs).toMatrix n m) := by
        rw [← Matrix.mul_assoc, ← Matrix.mul_assoc, hF, Matrix.one_mul]
    _ = F * (G * rhs.toMatrix n m) := by rw [← hleft, hback, hright]
    _ = rhs.toMatrix n m := by rw [← Matrix.mul_assoc, hF, Matrix.one_mul]

end Solve

end QubitDynamics.Mat
