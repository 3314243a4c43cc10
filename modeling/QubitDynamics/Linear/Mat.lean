import QubitDynamics.Number.Scalar

/-! Rectangular matrices, stored row by row. Every operation is given by the
entries of its result, and `entry_ofFn` is the one fact about the storage that
reasoning needs; `Mat.ext` compares matrices entry by entry. -/

namespace QubitDynamics

/-- A `rows × cols` matrix in row-major order. -/
structure Mat (K : Type) where
  rows : Nat
  cols : Nat
  data : Array K
  size_eq : data.size = rows * cols
  deriving DecidableEq

variable {K R : Type}

/-- The sum `f 0 + f 1 + ⋯ + f (n - 1)`. -/
def rangeSum [Zero K] [Add K] : Nat → (Nat → K) → K
  | 0, _ => 0
  | n + 1, f => rangeSum n f + f n

namespace Mat

/-- The matrix with entry `f i j` in row `i` and column `j`. -/
def ofFn (rows cols : Nat) (f : Nat → Nat → K) : Mat K :=
  ⟨rows, cols, Array.ofFn fun i : Fin (rows * cols) => f (i / cols) (i % cols), Array.size_ofFn⟩

/-- The entry in row `i` and column `j`, zero outside the matrix. -/
def entry [Zero K] (m : Mat K) (i j : Nat) : K :=
  if j < m.cols then m.data.getD (i * m.cols + j) 0 else 0

@[simp] theorem rows_ofFn (rows cols : Nat) (f : Nat → Nat → K) : (ofFn rows cols f).rows = rows := rfl

@[simp] theorem cols_ofFn (rows cols : Nat) (f : Nat → Nat → K) : (ofFn rows cols f).cols = cols := rfl

theorem index_lt {rows cols i j : Nat} (hi : i < rows) (hj : j < cols) : i * cols + j < rows * cols := by
  have h : (i + 1) * cols ≤ rows * cols := Nat.mul_le_mul_right cols hi
  rw [Nat.add_mul, Nat.one_mul] at h
  omega

theorem entry_ofFn [Zero K] {rows cols i j : Nat} (f : Nat → Nat → K) (hi : i < rows) (hj : j < cols) :
    (ofFn rows cols f).entry i j = f i j := by
  have hij := index_lt hi hj
  have hdiv : (i * cols + j) / cols = i := by
    rw [Nat.mul_comm, Nat.mul_add_div (by omega), Nat.div_eq_of_lt hj, Nat.add_zero]
  have hmod : (i * cols + j) % cols = j := by
    rw [Nat.mul_comm, Nat.mul_add_mod, Nat.mod_eq_of_lt hj]
  simp [entry, ofFn, hj, hij, hdiv, hmod]

theorem entry_div_mod [Zero K] (m : Mat K) {k : Nat} (hk : k < m.data.size) :
    m.entry (k / m.cols) (k % m.cols) = m.data[k] := by
  rw [m.size_eq] at hk
  have hc : 0 < m.cols := Nat.pos_of_ne_zero fun h => by simp [h] at hk
  simp [entry, Nat.mod_lt _ hc, Nat.div_add_mod', m.size_eq, hk]

/-- Matrices of one shape with the same entries are equal. -/
theorem ext [Zero K] {a b : Mat K} (hr : a.rows = b.rows) (hc : a.cols = b.cols)
    (h : ∀ i j, i < a.rows → j < a.cols → a.entry i j = b.entry i j) : a = b := by
  have hs : a.data.size = b.data.size := by rw [a.size_eq, b.size_eq, hr, hc]
  have hd : a.data = b.data := by
    refine Array.ext hs fun k ha hb => ?_
    have hk : k < a.rows * a.cols := by rw [← a.size_eq]; exact ha
    have hpos : 0 < a.cols := Nat.pos_of_ne_zero fun h => by simp [h] at hk
    have hi : k / a.cols < a.rows := Nat.div_lt_of_lt_mul (by rw [Nat.mul_comm]; exact hk)
    have := h (k / a.cols) (k % a.cols) hi (Nat.mod_lt _ hpos)
    rwa [entry_div_mod a ha, hc, entry_div_mod b hb] at this
  cases a
  cases b
  simp_all

def zero [Zero K] (rows cols : Nat) : Mat K := ofFn rows cols fun _ _ => 0

def identity [Zero K] [One K] (n : Nat) : Mat K := ofFn n n fun i j => if i = j then 1 else 0

/-- The matrix with the given entries in its only column. -/
def column [Zero K] (v : Array K) : Mat K := ofFn v.size 1 fun i _ => v.getD i 0

def single (z : K) : Mat K := ofFn 1 1 fun _ _ => z

/-- Entrywise sum of two matrices of one shape. -/
def add [Zero K] [Add K] (a b : Mat K) : Mat K :=
  ofFn a.rows a.cols fun i j => a.entry i j + b.entry i j

/-- Entrywise difference of two matrices of one shape. -/
def sub [Zero K] [Sub K] (a b : Mat K) : Mat K :=
  ofFn a.rows a.cols fun i j => a.entry i j - b.entry i j

def scale [Zero K] [Mul K] (k : K) (a : Mat K) : Mat K :=
  ofFn a.rows a.cols fun i j => a.entry i j * k

/-- `k` times the product of matrices whose inner dimensions agree. -/
def scaledMul [Zero K] [Add K] [Mul K] (k : K) (a b : Mat K) : Mat K :=
  ofFn a.rows b.cols fun i j => k * rangeSum a.cols fun t => a.entry i t * b.entry t j

/-- The product of matrices whose inner dimensions agree. -/
def mul [Zero K] [One K] [Add K] [Mul K] (a b : Mat K) : Mat K := scaledMul 1 a b

def mul? [Zero K] [One K] [Add K] [Mul K] (a b : Mat K) : Option (Mat K) :=
  if a.cols = b.rows then some (a.mul b) else none

/-- The Kronecker product; the second factor varies fastest. -/
def kron [Zero K] [Mul K] (a b : Mat K) : Mat K :=
  ofFn (a.rows * b.rows) (a.cols * b.cols) fun i j =>
    a.entry (i / b.rows) (j / b.cols) * b.entry (i % b.rows) (j % b.cols)

def conjTranspose [Zero K] [ComplexScalar K R] (a : Mat K) : Mat K :=
  ofFn a.cols a.rows fun i j => ComplexScalar.conj (a.entry j i)

def trace [Zero K] [Add K] (a : Mat K) : K := rangeSum a.rows fun i => a.entry i i

end Mat

end QubitDynamics
