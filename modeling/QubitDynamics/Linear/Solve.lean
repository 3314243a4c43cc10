import QubitDynamics.Linear.Mat

/-! Linear systems by Gaussian elimination with partial pivoting. The right-hand
sides stand beside the matrix in one augmented matrix; column by column the
entry of largest modulus is brought to the diagonal and the rows below are
cleared, then the unknowns are found from the last row upwards. -/

namespace QubitDynamics.Mat

variable {K R : Type}
variable [Zero K] [Add K] [Sub K] [Mul K] [Div K] [Zero R] [LE R] [DecidableLE R] [ComplexScalar K R]

def beside (a b : Mat K) : Mat K :=
  ofFn a.rows (a.cols + b.cols) fun i j => if j < a.cols then a.entry i j else b.entry i (j - a.cols)

/-- The row at or below `best` with the largest modulus in column `col`, the last such row
in a tie; `candidates` are the rows still to be compared. -/
def pivotFrom (a : Mat K) (col best : Nat) : List Nat → Nat
  | [] => best
  | i :: candidates =>
    if ComplexScalar.abs (a.entry best col) ≤ ComplexScalar.abs (a.entry i col) then
      pivotFrom a col i candidates
    else pivotFrom a col best candidates

/-- The pivot row of column `col` among the rows from `col` on. -/
def pivotRow (a : Mat K) (col : Nat) : Nat :=
  pivotFrom a col col (List.range' (col + 1) (a.rows - (col + 1)))

def swapRows (a : Mat K) (p q : Nat) : Mat K :=
  ofFn a.rows a.cols fun i j => a.entry (if i = p then q else if i = q then p else i) j

/-- Subtracts multiples of row `col` from the rows below so that column `col` vanishes there.
Rows whose multiplier vanishes and columns before `col` are kept as they are. -/
def clearBelow (a : Mat K) (col : Nat) : Mat K :=
  let factors := Array.ofFn fun i : Fin a.rows => a.entry i col / a.entry col col
  ofFn a.rows a.cols fun i j =>
    let factor := factors.getD i 0
    if i ≤ col ∨ j < col ∨ ComplexScalar.abs factor ≤ 0 then a.entry i j
    else a.entry i j - factor * a.entry col j

def eliminate (a : Mat K) (col : Nat) : Mat K :=
  (a.swapRows col (a.pivotRow col)).clearBelow col

/-- The augmented matrix after the first `n` columns are cleared. -/
def eliminated (a : Mat K) : Nat → Mat K
  | 0 => a
  | n + 1 => (a.eliminated n).eliminate n

/-- The last `d` rows of the solution of the eliminated system with `n` unknowns. -/
def backRows (a : Mat K) (n : Nat) : Nat → List (Array K)
  | 0 => []
  | d + 1 =>
    let below := backRows a n d
    let row := n - 1 - d
    Array.ofFn (fun j : Fin (a.cols - n) =>
      (a.entry row (n + j) -
        rangeSum d fun t => a.entry row (row + 1 + t) * (below.getD t #[]).getD j 0) /
        a.entry row row) :: below

/-- The solution `x` of `lhs · x = rhs`. -/
def solve (lhs rhs : Mat K) : Mat K :=
  let n := lhs.rows
  let rows := ((lhs.beside rhs).eliminated n).backRows n n
  ofFn n rhs.cols fun i j => (rows.getD i #[]).getD j 0

end QubitDynamics.Mat
