import Mathlib.Algebra.BigOperators.Fin
import Mathlib.LinearAlgebra.Matrix.Trace
import QubitDynamics.Linear.Mat

/-! Stored matrices as functions of row and column. `toMatrix r c m` forgets how
`m` is stored; every operation on stored matrices becomes the operation of the
same name, so that the laws of matrix algebra hold for stored matrices too. The
shape has to be known only for the operands that fix the shape of the result. -/

namespace QubitDynamics

variable {K : Type}

theorem rangeSum_congr [Zero K] [Add K] {n : ℕ} {f g : ℕ → K} (h : ∀ i < n, f i = g i) : rangeSum n f = rangeSum n g := by
  induction n with
  | zero => rfl
  | succ n ih => rw [rangeSum, rangeSum, ih fun i hi => h i (by omega), h n (by omega)]

theorem foldl_range_eq_rangeSum [Zero K] [Add K] (n : ℕ) (f : ℕ → K) :
    (List.range n).foldl (fun sum i => sum + f i) 0 = rangeSum n f := by
  induction n with
  | zero => rfl
  | succ n ih => rw [List.range_succ, List.foldl_append, ih]; rfl

theorem rangeSum_eq_sum [AddCommMonoid K] (n : ℕ) (f : ℕ → K) : rangeSum n f = ∑ i : Fin n, f i := by
  induction n with
  | zero => rfl
  | succ n ih => rw [rangeSum, ih, Fin.sum_univ_castSucc]; rfl

namespace Mat

structure HasShape (m : Mat K) (r c : ℕ) : Prop where
  rows : m.rows = r
  cols : m.cols = c

/-- The entries of the upper left `r × c` corner, with zeros where the matrix is smaller. -/
def toMatrix [Zero K] (r c : ℕ) (m : Mat K) : Matrix (Fin r) (Fin c) K := fun i j => m.entry i j

@[simp] theorem toMatrix_apply [Zero K] {r c : ℕ} (m : Mat K) (i : Fin r) (j : Fin c) :
    m.toMatrix r c i j = m.entry i j := rfl

/-- A matrix is determined by its shape and its entries. -/
theorem HasShape.ext [Zero K] {r c : ℕ} {a b : Mat K} (ha : a.HasShape r c) (hb : b.HasShape r c)
    (h : a.toMatrix r c = b.toMatrix r c) : a = b := by
  refine Mat.ext (ha.rows.trans hb.rows.symm) (ha.cols.trans hb.cols.symm) fun i j hi hj => ?_
  rw [ha.rows] at hi
  rw [ha.cols] at hj
  exact congrFun (congrFun h ⟨i, hi⟩) ⟨j, hj⟩

theorem hasShape_ofFn (r c : ℕ) (f : ℕ → ℕ → K) : (ofFn r c f).HasShape r c := ⟨rfl, rfl⟩

@[simp] theorem toMatrix_ofFn [Zero K] (r c : ℕ) (f : ℕ → ℕ → K) :
    (ofFn r c f).toMatrix r c = Matrix.of fun (i : Fin r) (j : Fin c) => f i j := by
  funext i j
  exact entry_ofFn f i.isLt j.isLt

def ofMatrix [Zero K] {r c : ℕ} (A : Matrix (Fin r) (Fin c) K) : Mat K :=
  ofFn r c fun i j => if h : i < r ∧ j < c then A ⟨i, h.1⟩ ⟨j, h.2⟩ else 0

theorem hasShape_ofMatrix [Zero K] {r c : ℕ} (A : Matrix (Fin r) (Fin c) K) : (ofMatrix A).HasShape r c := ⟨rfl, rfl⟩

@[simp] theorem toMatrix_ofMatrix [Zero K] {r c : ℕ} (A : Matrix (Fin r) (Fin c) K) :
    (ofMatrix A).toMatrix r c = A := by
  rw [ofMatrix, toMatrix_ofFn]
  funext i j
  simp

theorem ofMatrix_toMatrix [Zero K] {r c : ℕ} {m : Mat K} (hm : m.HasShape r c) : ofMatrix (m.toMatrix r c) = m :=
  (hasShape_ofMatrix _).ext hm (toMatrix_ofMatrix _)

section Algebra

theorem HasShape.add [Zero K] [Add K] {r c : ℕ} {a : Mat K} (ha : a.HasShape r c) (b : Mat K) :
    (a.add b).HasShape r c := ⟨ha.rows, ha.cols⟩

theorem HasShape.sub [Zero K] [Sub K] {r c : ℕ} {a : Mat K} (ha : a.HasShape r c) (b : Mat K) :
    (a.sub b).HasShape r c := ⟨ha.rows, ha.cols⟩

theorem HasShape.scale [Zero K] [Mul K] {r c : ℕ} {a : Mat K} (ha : a.HasShape r c) (k : K) :
    (a.scale k).HasShape r c := ⟨ha.rows, ha.cols⟩

theorem HasShape.mul [Zero K] [One K] [Add K] [Mul K] {r d c : ℕ} {a b : Mat K} (ha : a.HasShape r d)
    (hb : b.HasShape d c) : (a.mul b).HasShape r c := ⟨ha.rows, hb.cols⟩

theorem hasShape_zero [Zero K] (r c : ℕ) : (zero r c : Mat K).HasShape r c := ⟨rfl, rfl⟩

theorem hasShape_identity [Zero K] [One K] (d : ℕ) : (identity d : Mat K).HasShape d d := ⟨rfl, rfl⟩

theorem toMatrix_zero [Zero K] (r c : ℕ) : (zero r c : Mat K).toMatrix r c = 0 :=
  toMatrix_ofFn r c fun _ _ => 0

theorem toMatrix_identity [Zero K] [One K] (d : ℕ) : (identity d : Mat K).toMatrix d d = 1 := by
  rw [identity, toMatrix_ofFn]
  funext i j
  simp [Matrix.one_apply, Fin.ext_iff]

theorem HasShape.entry_scale [Zero K] [Mul K] {r c i j : ℕ} {a : Mat K} (ha : a.HasShape r c) (k : K) (hi : i < r)
    (hj : j < c) : (a.scale k).entry i j = a.entry i j * k :=
  entry_ofFn _ (ha.rows.symm ▸ hi) (ha.cols.symm ▸ hj)

theorem toMatrix_add [AddMonoid K] {r c : ℕ} {a : Mat K} (ha : a.HasShape r c) (b : Mat K) :
    (a.add b).toMatrix r c = a.toMatrix r c + b.toMatrix r c := by
  obtain ⟨rfl, rfl⟩ := ha
  rw [Mat.add, toMatrix_ofFn]
  rfl

theorem toMatrix_sub [AddGroup K] {r c : ℕ} {a : Mat K} (ha : a.HasShape r c) (b : Mat K) :
    (a.sub b).toMatrix r c = a.toMatrix r c - b.toMatrix r c := by
  obtain ⟨rfl, rfl⟩ := ha
  rw [Mat.sub, toMatrix_ofFn]
  rfl

theorem toMatrix_scale [CommSemiring K] {r c : ℕ} {a : Mat K} (ha : a.HasShape r c) (k : K) :
    (a.scale k).toMatrix r c = k • a.toMatrix r c := by
  obtain ⟨rfl, rfl⟩ := ha
  rw [Mat.scale, toMatrix_ofFn]
  funext i j
  simp [mul_comm]

theorem toMatrix_mul [Semiring K] {r d c : ℕ} {a b : Mat K} (ha : a.HasShape r d) (hb : b.HasShape d c) :
    (a.mul b).toMatrix r c = a.toMatrix r d * b.toMatrix d c := by
  obtain ⟨rfl, rfl⟩ := ha
  obtain ⟨-, rfl⟩ := hb
  rw [Mat.mul, scaledMul, toMatrix_ofFn]
  funext i j
  simp [Matrix.mul_apply, rangeSum_eq_sum]

theorem ofMatrix_zero [Zero K] (r c : ℕ) : ofMatrix (0 : Matrix (Fin r) (Fin c) K) = zero r c := by
  refine (hasShape_ofMatrix _).ext (hasShape_zero r c) ?_
  rw [toMatrix_ofMatrix, toMatrix_zero]

theorem ofMatrix_one [Zero K] [One K] (d : ℕ) : ofMatrix (1 : Matrix (Fin d) (Fin d) K) = identity d := by
  refine (hasShape_ofMatrix _).ext (hasShape_identity d) ?_
  rw [toMatrix_ofMatrix, toMatrix_identity]

theorem ofMatrix_add [AddMonoid K] {r c : ℕ} (A B : Matrix (Fin r) (Fin c) K) :
    ofMatrix (A + B) = (ofMatrix A).add (ofMatrix B) := by
  have hA := hasShape_ofMatrix A
  refine (hasShape_ofMatrix _).ext (hA.add _) ?_
  rw [toMatrix_add hA, toMatrix_ofMatrix, toMatrix_ofMatrix, toMatrix_ofMatrix]

theorem ofMatrix_smul [CommSemiring K] {r c : ℕ} (k : K) (A : Matrix (Fin r) (Fin c) K) :
    ofMatrix (k • A) = (ofMatrix A).scale k := by
  have hA := hasShape_ofMatrix A
  refine (hasShape_ofMatrix _).ext (hA.scale k) ?_
  rw [toMatrix_scale hA, toMatrix_ofMatrix, toMatrix_ofMatrix]

theorem ofMatrix_mul [Semiring K] {r d c : ℕ} (A : Matrix (Fin r) (Fin d) K) (B : Matrix (Fin d) (Fin c) K) :
    ofMatrix (A * B) = (ofMatrix A).mul (ofMatrix B) := by
  have hA := hasShape_ofMatrix A
  have hB := hasShape_ofMatrix B
  refine (hasShape_ofMatrix _).ext (hA.mul hB) ?_
  rw [toMatrix_mul hA hB, toMatrix_ofMatrix, toMatrix_ofMatrix, toMatrix_ofMatrix]

theorem entry_mul [Semiring K] {r d c i j : ℕ} {a b : Mat K} (ha : a.HasShape r d) (hb : b.HasShape d c) (hi : i < r)
    (hj : j < c) : (a.mul b).entry i j = ∑ t : Fin d, a.entry i t * b.entry t j :=
  congrFun (congrFun (toMatrix_mul ha hb) ⟨i, hi⟩) ⟨j, hj⟩

theorem trace_eq [AddCommMonoid K] {d : ℕ} {a : Mat K} (ha : a.HasShape d d) : a.trace = (a.toMatrix d d).trace := by
  rw [Mat.trace, ha.rows, rangeSum_eq_sum]
  rfl

theorem HasShape.kron [Zero K] [Mul K] {r c r' c' : ℕ} {a b : Mat K} (ha : a.HasShape r c)
    (hb : b.HasShape r' c') : (a.kron b).HasShape (r * r') (c * c') :=
  ⟨congrArg₂ (· * ·) ha.rows hb.rows, congrArg₂ (· * ·) ha.cols hb.cols⟩

/-- An entry of the Kronecker product by the quotients and remainders of its row and column. -/
theorem entry_kron [MulZeroClass K] {r c r' c' i j : ℕ} {a b : Mat K} (ha : a.HasShape r c)
    (hb : b.HasShape r' c') (hi : i < r * r') (hj : j < c * c') :
    (a.kron b).entry i j = a.entry (i / r') (j / c') * b.entry (i % r') (j % c') := by
  obtain ⟨rfl, rfl⟩ := ha
  obtain ⟨rfl, rfl⟩ := hb
  exact entry_ofFn _ hi hj

end Algebra

end Mat

end QubitDynamics
